import Bbkar.Durations

/-!
# The configuration file

Translation of `BbkarConfigFile::from_toml` on what `toml` has read. Every check is made,
in the order of the source, and the messages of those that fail are collected.
-/
namespace Bbkar.ConfigFile
open Words

/-! ## The file -/

/-- The entries in the order in which they are visited. -/
structure HashMap (α : Type) where
  entries : List (String × α)
  nodup : (entries.map Prod.fst).Nodup

namespace HashMap

variable {α : Type}

def containsKey (m : HashMap α) (key : String) : Bool := (m.entries.map Prod.fst).contains key

def len (m : HashMap α) : ℕ := m.entries.length

def mapValues (m : HashMap α) (f : α → α) : HashMap α where
  entries := m.entries.map fun e => (e.1, f e.2)
  nodup := by
    rw [List.map_map]
    exact m.nodup

end HashMap

structure GlobalConfig where
  compression : String
  maxBackupChunkSize : ℕ
  btrfsSendConcurrency : ℕ
  writeArchiveConcurrency : ℕ
  deriving DecidableEq, Repr

def GlobalConfig.default : GlobalConfig := ⟨"zstd", 32, 1, 1⟩

structure SourceSpec where
  path : String
  filter : List String
  deriving DecidableEq, Repr

inductive BackendSpec where
  | localDir (path : String)
  | s3 (bucket path : String)
    (region endpoint accessKeyId secretAccessKey sessionToken : Option String)
    (disableConfigLoad : Bool)
  | gcs (bucket path : String) (endpoint credentialPath : Option String)
  deriving DecidableEq, Repr

structure DestSpec where
  backendSpec : BackendSpec
  deriving DecidableEq, Repr

structure SyncSpec where
  source : String
  dest : String
  filter : List String
  minFullSendInterval : String
  maxIncrementalDepth : Option ℕ
  archivePreserveMin : String
  archivePreserve : Option String
  preserveDayOfWeek : String
  deriving DecidableEq, Repr

structure BbkarConfigFile where
  global : GlobalConfig
  source : HashMap SourceSpec
  dest : HashMap DestSpec
  sync : HashMap SyncSpec

/-! ## The checks -/

/-- What is an error: a condition, a string that is no duration, a string that is no schedule. -/
inductive Fault where
  | fails (condition : Bool)
  | badDuration (s : String)
  | badSchedule (s : String)
  deriving DecidableEq, Repr

structure Check where
  fault : Fault
  message : String
  deriving DecidableEq, Repr

def globalChecks (global : GlobalConfig) : List Check :=
  [⟨.fails (global.compression ≠ "zstd"),
      s!"global.compression must be \"zstd\", got \"{global.compression}\""⟩,
    ⟨.fails (global.maxBackupChunkSize < 1 || 2048 < global.maxBackupChunkSize),
      s!"global.max_backup_chunk_size must be in range 1..=2048, got {global.maxBackupChunkSize}"⟩,
    ⟨.fails (global.btrfsSendConcurrency ≠ 1),
      s!"global.btrfs_send_concurrency must be 1, got {global.btrfsSendConcurrency}"⟩,
    ⟨.fails (global.writeArchiveConcurrency ≠ 1),
      s!"global.write_archive_concurrency must be 1, got {global.writeArchiveConcurrency}"⟩]

def countCheck (kind : String) (len : ℕ) : Check :=
  ⟨.fails (1 < len), s!"at most 1 {kind} is supported, got {len}"⟩

def destChecks (name : String) (dest : DestSpec) : List Check :=
  match dest.backendSpec with
  | .localDir path =>
    [⟨.fails (path.toList.head? ≠ some '/'),
      s!"dest.{name}.path must be absolute for local backend, got \"{path}\""⟩]
  | .s3 bucket .. | .gcs bucket .. =>
    [⟨.fails (trim isWhitespace bucket.toList).isEmpty, s!"dest.{name}.bucket must not be empty"⟩]

def maxIncrementalDepthChecks (name : String) : Option ℕ → List Check
  | none => []
  | some depth =>
    [⟨.fails (depth < 1), s!"sync.{name}.max_incremental_depth must be >= 1, got {depth}"⟩]

def archivePreserveMinChecks (name value : String) : List Check :=
  if value = "all" then []
  else
    [⟨.badDuration value,
      s!"sync.{name}.archive_preserve_min: must be \"all\" or valid duration, got \"{value}\""⟩]

def archivePreserveChecks (name : String) : Option String → List Check
  | none => []
  | some schedule =>
    [⟨.badSchedule schedule, s!"sync.{name}.archive_preserve: invalid schedule \"{schedule}\""⟩]

def syncChecks (config : BbkarConfigFile) (name : String) (sync : SyncSpec) : List Check :=
  [⟨.fails (!config.source.containsKey sync.source),
      s!"sync.{name}.source refers to unknown source \"{sync.source}\""⟩,
    ⟨.fails (!config.dest.containsKey sync.dest),
      s!"sync.{name}.dest refers to unknown dest \"{sync.dest}\""⟩,
    ⟨.badDuration sync.minFullSendInterval,
      s!"sync.{name}.min_full_send_interval: invalid duration \"{sync.minFullSendInterval}\""⟩] ++
  maxIncrementalDepthChecks name sync.maxIncrementalDepth ++
  archivePreserveMinChecks name sync.archivePreserveMin ++
  archivePreserveChecks name sync.archivePreserve ++
  [⟨.fails (Weekday.parse sync.preserveDayOfWeek).isNone,
      s!"sync.{name}.preserve_day_of_week: invalid weekday \"{sync.preserveDayOfWeek}\""⟩]

def checks (config : BbkarConfigFile) : List Check :=
  globalChecks config.global ++
  [countCheck "source" config.source.len, countCheck "dest" config.dest.len,
    countCheck "sync" config.sync.len] ++
  config.dest.entries.flatMap (fun e => destChecks e.1 e.2) ++
  config.sync.entries.flatMap fun e => syncChecks config e.1 e.2

def Fault.present (overflowChecks : Bool) : Fault → BR Bool
  | fails condition => .ok condition
  | badDuration s => (CalendarDuration.parse overflowChecks s).map Option.isNone
  | badSchedule s => (PreserveSchedule.parse s).map Option.isNone

/-- The messages of the checks that fail. -/
def collectErrors (overflowChecks : Bool) : List Check → BR (List String)
  | [] => .ok []
  | check :: checks => do
    let fails ← check.fault.present overflowChecks
    let errors ← collectErrors overflowChecks checks
    return if fails then check.message :: errors else errors

/-! ## Reading the file -/

/-- `while path.len() > 1 && path.ends_with('/')`, on the reversed path. -/
def popSlashes : List Char → List Char
  | '/' :: c :: cs => popSlashes (c :: cs)
  | cs => cs

def normalize (config : BbkarConfigFile) : BbkarConfigFile :=
  { config with
    source := config.source.mapValues fun source =>
      { source with path := String.ofList (popSlashes source.path.toList.reverse).reverse } }

def conclude (config : BbkarConfigFile) (errors : List String) : BR BbkarConfigFile :=
  if errors.isEmpty then .ok (normalize config) else .error (.err (.config errors))

def fromToml (overflowChecks : Bool) (config : BbkarConfigFile) : BR BbkarConfigFile := do
  let errors ← collectErrors overflowChecks (checks config)
  conclude config errors

/-! ## What the checks are for -/

/-- Whether the fault is there, by what durations and schedules denote. -/
def Fault.exact : Fault → Bool
  | fails condition => condition
  | badDuration s => (exactDuration s).isNone
  | badSchedule s => (exactSchedule s).isNone

/-- The messages of all the faults that are there. -/
def exactErrors (checks : List Check) : List String :=
  (checks.filter (·.fault.exact)).map Check.message

def fromTomlExact (config : BbkarConfigFile) : BR BbkarConfigFile :=
  conclude config (exactErrors (checks config))

def Fault.Safe : Fault → Prop
  | fails _ => True
  | badDuration s => DurationSafe s
  | badSchedule s => ScheduleSafe s

theorem Fault.present_of_safe {overflowChecks : Bool} {fault : Fault} (h : fault.Safe) :
    fault.present overflowChecks = .ok fault.exact := by
  cases fault with
  | fails condition => rfl
  | badDuration s =>
    have hparses : ParsesDuration overflowChecks s := parsesDuration_iff_safe.mpr h
    have hparse := parsesDuration_iff_exact.mp hparses
    simp [present, exact, hparse, Except.map]
  | badSchedule s =>
    have hparse := parsesSchedule_iff_exact.mp (parsesSchedule_iff_safe.mpr h)
    simp [present, exact, hparse, Except.map]

/-- Where parsing is not exact there is a fault, and it is not found. -/
theorem Fault.present_of_not_safe (overflowChecks : Bool) {fault : Fault} (h : ¬ fault.Safe) :
    fault.exact = true ∧ (fault.present overflowChecks = .error .panic ∨
      fault.present overflowChecks = .ok false) := by
  cases fault with
  | fails condition => exact absurd trivial h
  | badDuration s =>
    obtain ⟨-, hnone, hparse⟩ :=
      (CalendarDuration.parse_cases overflowChecks s).resolve_left fun hs => h hs.1
    refine ⟨by simp [exact, hnone], ?_⟩
    rcases hparse with hpanic | ⟨d, hsome⟩
    · exact Or.inl (by simp [present, hpanic, Except.map])
    · exact Or.inr (by simp [present, hsome, Except.map])
  | badSchedule s =>
    obtain ⟨-, hnone, hpanic⟩ := (PreserveSchedule.parse_cases s).resolve_left fun hs => h hs.1
    exact ⟨by simp [exact, hnone], Or.inl (by simp [present, hpanic, Except.map])⟩

theorem collectErrors_of_present {overflowChecks fails : Bool} {check : Check}
    (h : check.fault.present overflowChecks = .ok fails) (checks : List Check) :
    collectErrors overflowChecks (check :: checks) =
      (collectErrors overflowChecks checks).map fun errors =>
        if fails then check.message :: errors else errors := by
  simp only [collectErrors, h, bind, Except.bind]
  cases collectErrors overflowChecks checks <;> rfl

theorem exactErrors_cons (check : Check) (checks : List Check) :
    exactErrors (check :: checks) =
      if check.fault.exact then check.message :: exactErrors checks else exactErrors checks := by
  unfold exactErrors
  rw [List.filter_cons]
  split_ifs <;> rfl

/-- The faults are all found, or the search panics, or fewer of them are found. -/
theorem collectErrors_cases (overflowChecks : Bool) (checks : List Check) :
    ((∀ check ∈ checks, check.fault.Safe) ∧
      collectErrors overflowChecks checks = .ok (exactErrors checks)) ∨
    ((∃ check ∈ checks, ¬ check.fault.Safe) ∧
      (collectErrors overflowChecks checks = .error .panic ∨
        ∃ errors, collectErrors overflowChecks checks = .ok errors ∧
          errors.length < (exactErrors checks).length)) := by
  induction checks with
  | nil => exact Or.inl ⟨by simp, rfl⟩
  | cons check checks ih =>
    rw [exactErrors_cons]
    by_cases hsafe : check.fault.Safe
    · rw [collectErrors_of_present (Fault.present_of_safe hsafe)]
      rcases ih with ⟨hall, hexact⟩ | ⟨⟨c, hc, hbad⟩, hpanic | ⟨errors, herrors, hlt⟩⟩
      · exact Or.inl ⟨List.forall_mem_cons.mpr ⟨hsafe, hall⟩, by rw [hexact]; rfl⟩
      · exact Or.inr ⟨⟨c, List.mem_cons_of_mem _ hc, hbad⟩, Or.inl (by rw [hpanic]; rfl)⟩
      · refine Or.inr ⟨⟨c, List.mem_cons_of_mem _ hc, hbad⟩, Or.inr ⟨_, by rw [herrors]; rfl, ?_⟩⟩
        split_ifs
        · exact Nat.succ_lt_succ hlt
        · exact hlt
    · obtain ⟨hfault, hpresent⟩ := Fault.present_of_not_safe overflowChecks hsafe
      refine Or.inr ⟨⟨check, List.mem_cons_self, hsafe⟩, ?_⟩
      rw [if_pos hfault]
      rcases hpresent with hpanic | hfound
      · exact Or.inl (by simp [collectErrors, hpanic, bind, Except.bind])
      rw [collectErrors_of_present hfound]
      rcases ih with ⟨-, hexact⟩ | ⟨-, hpanic | ⟨errors, herrors, hlt⟩⟩
      · exact Or.inr ⟨_, by rw [hexact]; rfl, by simp⟩
      · exact Or.inl (by rw [hpanic]; rfl)
      · exact Or.inr ⟨_, by rw [herrors]; rfl, Nat.lt_succ_of_lt hlt⟩

/-- The durations and the schedule of the sync are parsed exactly. -/
def SyncSafe (sync : SyncSpec) : Prop :=
  DurationSafe sync.minFullSendInterval ∧
    (sync.archivePreserveMin ≠ "all" → DurationSafe sync.archivePreserveMin) ∧
    ∀ schedule, sync.archivePreserve = some schedule → ScheduleSafe schedule

def ConfigSafe (config : BbkarConfigFile) : Prop := ∀ e ∈ config.sync.entries, SyncSafe e.2

theorem syncChecks_safe {config : BbkarConfigFile} {name : String} {sync : SyncSpec} :
    (∀ check ∈ syncChecks config name sync, check.fault.Safe) ↔ SyncSafe sync := by
  have hdepth : ∀ check ∈ maxIncrementalDepthChecks name sync.maxIncrementalDepth,
      check.fault.Safe := by
    cases sync.maxIncrementalDepth <;> simp [maxIncrementalDepthChecks, Fault.Safe]
  have hmin : (∀ check ∈ archivePreserveMinChecks name sync.archivePreserveMin,
      check.fault.Safe) ↔
      (sync.archivePreserveMin ≠ "all" → DurationSafe sync.archivePreserveMin) := by
    unfold archivePreserveMinChecks
    split_ifs with h <;> simp [h, Fault.Safe]
  have hschedule : (∀ check ∈ archivePreserveChecks name sync.archivePreserve,
      check.fault.Safe) ↔
      ∀ schedule, sync.archivePreserve = some schedule → ScheduleSafe schedule := by
    cases sync.archivePreserve <;> simp [archivePreserveChecks, Fault.Safe]
  simp only [syncChecks, List.forall_mem_append, iff_true_intro hdepth, hmin, hschedule]
  simp [Fault.Safe, SyncSafe, and_assoc]

theorem checks_safe {config : BbkarConfigFile} :
    (∀ check ∈ checks config, check.fault.Safe) ↔ ConfigSafe config := by
  have hdest : ∀ check ∈ config.dest.entries.flatMap fun e => destChecks e.1 e.2,
      check.fault.Safe := by
    intro check hcheck
    obtain ⟨e, -, hcheck⟩ := List.mem_flatMap.mp hcheck
    unfold destChecks at hcheck
    split at hcheck <;> simp_all [Fault.Safe]
  have hsync : (∀ check ∈ config.sync.entries.flatMap fun e => syncChecks config e.1 e.2,
      check.fault.Safe) ↔ ConfigSafe config := by
    constructor
    · intro h e he
      exact syncChecks_safe.mp fun check hcheck => h check (List.mem_flatMap.mpr ⟨e, he, hcheck⟩)
    · intro h check hcheck
      obtain ⟨e, he, hcheck⟩ := List.mem_flatMap.mp hcheck
      exact syncChecks_safe.mpr (h e he) check hcheck
  simp only [checks, List.forall_mem_append, iff_true_intro hdest, hsync]
  simp [globalChecks, countCheck, Fault.Safe]

theorem conclude_inj {config : BbkarConfigFile} {a b : List String}
    (h : conclude config a = conclude config b) : a = b := by
  unfold conclude at h
  cases a <;> cases b <;> simp_all

/-- The file is read as by exact parsers exactly when its strings are parsed exactly. -/
theorem fromToml_eq_exact {overflowChecks : Bool} {config : BbkarConfigFile} :
    fromToml overflowChecks config = fromTomlExact config ↔ ConfigSafe config := by
  rw [← checks_safe, fromToml, fromTomlExact]
  rcases collectErrors_cases overflowChecks (checks config) with
    ⟨hall, hexact⟩ | ⟨⟨c, hc, hbad⟩, hpanic | ⟨errors, herrors, hlt⟩⟩
  · exact iff_of_true (by rw [hexact]; rfl) hall
  · refine iff_of_false (fun heq => ?_) fun hall => hbad (hall c hc)
    rw [hpanic] at heq
    unfold conclude at heq
    split_ifs at heq <;> cases heq
  · refine iff_of_false (fun heq => ?_) fun hall => hbad (hall c hc)
    rw [herrors] at heq
    exact hlt.ne (congrArg List.length (conclude_inj heq))

/-- A duration or schedule of a sync that denotes nothing, and the message for it. -/
inductive BadField (name : String) (sync : SyncSpec) : String → Prop
  | minFullSendInterval {value : String} (hvalue : sync.minFullSendInterval = value)
      (h : ∀ d, ¬ DurationOf value d) :
      BadField name sync s!"sync.{name}.min_full_send_interval: invalid duration \"{value}\""
  | archivePreserveMin {value : String} (hvalue : sync.archivePreserveMin = value)
      (hall : value ≠ "all") (h : ∀ d, ¬ DurationOf value d) :
      BadField name sync
        s!"sync.{name}.archive_preserve_min: must be \"all\" or valid duration, got \"{value}\""
  | archivePreserve {value : String} (hvalue : sync.archivePreserve = some value)
      (h : ∀ schedule, ¬ ScheduleOf value schedule) :
      BadField name sync s!"sync.{name}.archive_preserve: invalid schedule \"{value}\""

theorem Fault.exact_badDuration {s : String} (h : ∀ d, ¬ DurationOf s d) :
    (Fault.badDuration s).exact = true :=
  isNone_of_denotes_nothing (fun _ => exactDuration_eq_some) h

theorem Fault.exact_badSchedule {s : String} (h : ∀ schedule, ¬ ScheduleOf s schedule) :
    (Fault.badSchedule s).exact = true :=
  isNone_of_denotes_nothing (fun _ => exactSchedule_eq_some) h

/-- Every bad field is reported by exact parsers. -/
theorem fromTomlExact_reports {config : BbkarConfigFile} {name message : String}
    {sync : SyncSpec} (hsync : (name, sync) ∈ config.sync.entries)
    (hbad : BadField name sync message) :
    ∃ errors, fromTomlExact config = .error (.err (.config errors)) ∧ message ∈ errors := by
  have hcheck : ∃ check ∈ syncChecks config name sync,
      check.fault.exact = true ∧ check.message = message := by
    cases hbad with
    | minFullSendInterval hvalue h =>
      refine ⟨⟨.badDuration _, _⟩, ?_, Fault.exact_badDuration h, rfl⟩
      simp [syncChecks, hvalue]
    | archivePreserveMin hvalue hall h =>
      refine ⟨⟨.badDuration _, _⟩, ?_, Fault.exact_badDuration h, rfl⟩
      simp [syncChecks, archivePreserveMinChecks, hvalue, hall]
    | archivePreserve hvalue h =>
      refine ⟨⟨.badSchedule _, _⟩, ?_, Fault.exact_badSchedule h, rfl⟩
      simp [syncChecks, archivePreserveChecks, hvalue]
  obtain ⟨check, hcheck, hfault, rfl⟩ := hcheck
  have hmem : check.message ∈ exactErrors (checks config) := by
    refine List.mem_map_of_mem (List.mem_filter.mpr ⟨List.mem_append_right _ ?_, hfault⟩)
    exact List.mem_flatMap.mpr ⟨(name, sync), hsync, hcheck⟩
  refine ⟨_, ?_, hmem⟩
  rw [fromTomlExact, conclude, if_neg]
  simpa using List.ne_nil_of_mem hmem

theorem globalChecks_default : exactErrors (globalChecks .default) = [] := by decide

/-! ## The strings of the file -/

/-- Parsing is total and exact, and a file is read as by exact parsers, which report every
bad field, when a one-byte unit ends the strings and the products are in `u32`, only then. -/
theorem configStrings_exact_iff (overflowChecks : Bool) :
    (∀ s, ParsesDuration overflowChecks s ↔ DurationSafe s) ∧
    (∀ s, ParsesSchedule s ↔ ScheduleSafe s) ∧
    (∀ config, fromToml overflowChecks config = fromTomlExact config ↔ ConfigSafe config) ∧
    ∀ config name sync message, (name, sync) ∈ config.sync.entries → BadField name sync message →
      ∃ errors, fromTomlExact config = .error (.err (.config errors)) ∧ message ∈ errors :=
  ⟨fun _ => parsesDuration_iff_safe, fun _ => parsesSchedule_iff_safe,
    fun _ => fromToml_eq_exact, fun _ _ _ _ => fromTomlExact_reports⟩

/-- A file with one sync, which has the given interval. -/
def intervalFile (interval : String) : BbkarConfigFile where
  global := .default
  source := ⟨[("src", ⟨"/mnt", ["*"]⟩)], List.nodup_singleton _⟩
  dest := ⟨[("dst", ⟨.localDir "/srv"⟩)], List.nodup_singleton _⟩
  sync := ⟨[("main", ⟨"src", "dst", ["*"], interval, none, "all", none, "sunday"⟩)],
    List.nodup_singleton _⟩

/-- A unit outside ASCII crashes the program. A product past `u32` crashes it or wraps. -/
theorem configStrings_wideUnit :
    CalendarDuration.parse false "30é" = .error .panic ∧
    PreserveSchedule.parse "30é" = .error .panic ∧
    CalendarDuration.parse true "4294967295y" = .error .panic ∧
    CalendarDuration.parse false "4294967295y" = .ok (some ⟨4294966931⟩) ∧
    ¬ (∀ s, ParsesDuration true s) ∧ ¬ (∀ s, ParsesDuration false s) ∧
    ¬ (∀ s, ParsesSchedule s) ∧
    fromToml false (intervalFile "30é") = .error .panic ∧
    fromToml false (intervalFile "4294967295y") =
      .ok (normalize (intervalFile "4294967295y")) := by
  have hwide (overflowChecks : Bool) :
      CalendarDuration.parse overflowChecks "30é" = .error .panic := by
    cases overflowChecks <;> decide +kernel
  have hduration (overflowChecks : Bool) : ¬ ParsesDuration overflowChecks "30é" := by
    rintro ⟨r, hr, -⟩
    rw [hwide] at hr
    cases hr
  have hschedule : PreserveSchedule.parse "30é" = .error .panic := by decide +kernel
  refine ⟨hwide false, hschedule, by decide +kernel, by decide +kernel,
    fun h => hduration true (h _), fun h => hduration false (h _), fun h => ?_, ?_, ?_⟩
  · obtain ⟨r, hr, -⟩ := h "30é"
    rw [hschedule] at hr
    cases hr
  · have hcrash : collectErrors false (checks (intervalFile "30é")) = .error .panic := by
      decide +kernel
    rw [fromToml, hcrash]
    rfl
  · have haccept : collectErrors false (checks (intervalFile "4294967295y")) = .ok [] := by
      decide +kernel
    rw [fromToml, haccept]
    rfl

end Bbkar.ConfigFile
