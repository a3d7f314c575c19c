import Bbkar.InspectSource
import Bbkar.PlanLoop
import Bbkar.SendIterator
import Mathlib.Data.Set.Function

/-!
# A scan is a partition of the directory

Joining a volume and a suffix undoes the cut at the last dot, so the snapshots that a scan
returns are in bijection with the entries it accepted, and a send names such an entry.
-/
namespace Bbkar
open KeySort

/-! ## Cutting and joining names -/

theorem splitName_eq_some {name volume suffix : String} :
    splitName name = some (volume, suffix) ↔
      name = subvolumeName volume suffix ∧ '.' ∉ suffix.toList := by
  simp only [splitName, Option.map_eq_some_iff, Prod.mk.injEq, Prod.exists]
  constructor
  · rintro ⟨before, after, hsplit, rfl, rfl⟩
    obtain ⟨hname, hdot⟩ := rsplitOnce_eq_some.mp hsplit
    refine ⟨String.toList_injective ?_, by simpa using hdot⟩
    simp [subvolumeName, hname]
  · rintro ⟨rfl, hdot⟩
    refine ⟨volume.toList, suffix.toList, rsplitOnce_eq_some.mpr ⟨?_, hdot⟩, by simp, by simp⟩
    simp [subvolumeName]

theorem splitName_injective {a b : String} {parts : String × String}
    (ha : splitName a = some parts) (hb : splitName b = some parts) : a = b := by
  rw [(splitName_eq_some.mp ha).1, (splitName_eq_some.mp hb).1]

theorem parseEntry_injective {a b : String} {e : String × Timestamp}
    (ha : parseEntry a = some e) (hb : parseEntry b = some e) : a = b :=
  splitName_injective (parseEntry_eq_some.mp ha).1 (parseEntry_eq_some.mp hb).1

/-! ## Directories without read errors -/

/-- A directory with these entries. -/
def listing (names : List String) : SourceDir := ⟨true, .ok (names.map .ok)⟩

theorem foldlM_groupEntry_ok (names : List String) (grouped : Grouped) :
    ∃ last, (names.map Except.ok).foldlM groupEntry grouped = .ok last := by
  induction names generalizing grouped with
  | nil => exact ⟨grouped, rfl⟩
  | cons name names ih =>
    have hstep : ∃ next, groupEntry grouped (.ok name) = .ok next := by
      cases hparse : parseEntry name with
      | none => exact ⟨grouped, by simp [groupEntry, hparse, bind, Except.bind, pure, Except.pure]⟩
      | some e =>
        exact ⟨_, by simp only [groupEntry, hparse, bind, Except.bind, pure, Except.pure]; rfl⟩
    obtain ⟨next, hnext⟩ := hstep
    obtain ⟨last, hlast⟩ := ih next
    exact ⟨last, by rw [List.map_cons, List.foldlM_cons, hnext]; exact hlast⟩

/-- For each volume that matches the filter and has snapshots the result is their series. -/
def IsScan (filter names : List String) (result : String → Option SourceState) : Prop :=
  ∀ volume src, result volume = some src ↔
    filter.any (wildcardMatch · volume) = true ∧ snapshotsNamed volume names ≠ [] ∧
      src = ⟨Series.new volume (snapshotsNamed volume names)⟩

/-- The scan of a directory without read errors succeeds. -/
theorem inspectSource_listing (spec : SourceSpec) (names : List String) :
    ∃ result, inspectSource spec (listing names) = .ok result ∧
      IsScan spec.filter names result := by
  obtain ⟨grouped, hfold⟩ := foldlM_groupEntry_ok names (fun _ => none)
  have hok : ∃ result, inspectSource spec (listing names) = .ok result :=
    ⟨_, by simp only [inspectSource, listing, hfold, bind, Except.bind, pure, Except.pure]; rfl⟩
  obtain ⟨result, hresult⟩ := hok
  obtain ⟨names', hread, hchar⟩ := inspectSource_ok hresult
  have hnames : names' = names := by
    have hmap : names.map (Except.ok : String → BR String) = names'.map Except.ok := by
      simpa [listing] using hread
    exact (List.map_injective_iff.mpr (fun _ _ => Except.ok.inj) hmap).symm
  exact ⟨result, hresult, hnames ▸ hchar⟩

/-! ## The groups of a listing -/

theorem nodup_snapshotsNamed {names : List String} (h : names.Nodup) (volume : String) :
    (snapshotsNamed volume names).Nodup := by
  refine List.Nodup.filterMap ?_ h
  intro a b t ha hb
  simp only [Option.mem_def, Option.bind_eq_some_iff] at ha hb
  obtain ⟨⟨v, s⟩, hpa, ha⟩ := ha
  obtain ⟨⟨v', s'⟩, hpb, hb⟩ := hb
  split_ifs at ha hb with hv hv'
  simp only at hv hv'
  simp only [Option.some.injEq] at ha hb
  subst hv hv' ha hb
  exact parseEntry_injective hpa hpb

theorem Series.new_strict (volume : String) {snapshots : List Timestamp}
    (h : snapshots.Nodup) : (Series.new volume snapshots).snapshots.Pairwise (· < ·) :=
  sortByKey_strict (by simpa using h)

theorem Series.new_congr (volume : String) {xs ys : List Timestamp} (h : xs.Perm ys)
    (hnodup : xs.Nodup) : Series.new volume xs = Series.new volume ys := by
  have hsort : sortByKey id xs = sortByKey id ys := sortByKey_eq_of_perm h (by simpa using hnodup)
  simp only [Series.new, hsort]

/-! ## The partition -/

/-- Entry `name` becomes a snapshot of `volume`. -/
structure Accepted (filter names : List String) (volume name : String) : Prop where
  mem : name ∈ names
  suffix : ∃ suffix, splitName name = some (volume, suffix) ∧
    (Timestamp.parse suffix).isSome = true
  filter : ∃ pattern ∈ filter, wildcardMatch pattern volume = true

/-- The volumes and snapshots in the result of a scan. -/
def scanned (result : String → Option SourceState) : Set (String × Timestamp) :=
  {q | ∃ src, result q.1 = some src ∧ q.2 ∈ src.snapshots}

theorem snapshotsNamed_ne_nil {names : List String} {volume : String} :
    snapshotsNamed volume names ≠ [] ↔
      ∃ name ∈ names, ∃ suffix, splitName name = some (volume, suffix) ∧
        (Timestamp.parse suffix).isSome = true := by
  rw [← List.length_pos_iff, List.length_pos_iff_exists_mem]
  simp only [mem_snapshotsNamed]
  constructor
  · rintro ⟨t, name, hname, hparse⟩
    obtain ⟨hsplit, hparsed⟩ := parseEntry_eq_some.mp hparse
    exact ⟨name, hname, t.raw, hsplit, by rw [hparsed]; rfl⟩
  · rintro ⟨name, hname, suffix, hsplit, hsome⟩
    obtain ⟨t, ht⟩ := Option.isSome_iff_exists.mp hsome
    refine ⟨t, name, hname, parseEntry_eq_some.mpr ⟨?_, Timestamp.parsed_of_parse ht⟩⟩
    rw [hsplit, Timestamp.parse_raw ht]

namespace IsScan

variable {filter names order : List String} {result result' : String → Option SourceState}

/-- The order of the entries does not matter. -/
theorem eq_of_perm (hscan : IsScan filter names result) (hnames : names.Nodup)
    (hperm : order.Perm names) (hscan' : IsScan filter order result') : result' = result := by
  refine funext fun volume => Option.ext fun src => ?_
  have hsnaps : (snapshotsNamed volume order).Perm (snapshotsNamed volume names) :=
    hperm.filterMap _
  have hseries := Series.new_congr volume hsnaps
    (nodup_snapshotsNamed (hperm.nodup_iff.mpr hnames) volume)
  rw [hscan' volume src, hscan volume src, hseries, ne_eq, ne_eq, ← List.length_eq_zero_iff,
    ← List.length_eq_zero_iff, hsnaps.length_eq]

theorem isSome_iff (hscan : IsScan filter names result) (volume : String) :
    (result volume).isSome = true ↔ ∃ name, Accepted filter names volume name := by
  rw [Option.isSome_iff_exists]
  constructor
  · rintro ⟨src, hsrc⟩
    obtain ⟨hfilter, hne, -⟩ := (hscan volume src).mp hsrc
    obtain ⟨name, hname, hsuffix⟩ := snapshotsNamed_ne_nil.mp hne
    exact ⟨name, hname, hsuffix, List.any_eq_true.mp hfilter⟩
  · rintro ⟨name, haccepted⟩
    exact ⟨_, (hscan volume _).mpr ⟨List.any_eq_true.mpr haccepted.filter,
      snapshotsNamed_ne_nil.mpr ⟨name, haccepted.mem, haccepted.suffix⟩, rfl⟩⟩

theorem series (hscan : IsScan filter names result) (hnames : names.Nodup) {volume : String}
    {src : SourceState} (hsrc : result volume = some src) :
    src.volume.origName = volume ∧ src.snapshots ≠ [] ∧ src.snapshots.Pairwise (· < ·) := by
  obtain ⟨-, hne, rfl⟩ := (hscan volume src).mp hsrc
  refine ⟨rfl, ?_, Series.new_strict volume (nodup_snapshotsNamed hnames volume)⟩
  intro hnil
  have hperm := sortByKey_perm id (snapshotsNamed volume names)
  exact hne (List.nil_perm.mp (hnil ▸ hperm))

/-- The snapshots in the result are those that the entries of matching volumes parse to. -/
theorem mem_scanned (hscan : IsScan filter names result) {volume : String} {t : Timestamp} :
    (volume, t) ∈ scanned result ↔
      (∃ pattern ∈ filter, wildcardMatch pattern volume = true) ∧
        ∃ name ∈ names, parseEntry name = some (volume, t) := by
  rw [← mem_snapshotsNamed, ← List.any_eq_true]
  constructor
  · rintro ⟨src, hsrc, ht⟩
    obtain ⟨hfilter, -, rfl⟩ := (hscan volume src).mp hsrc
    exact ⟨hfilter, (mem_sortByKey id _ t).mp ht⟩
  · rintro ⟨hfilter, ht⟩
    exact ⟨_, (hscan volume _).mpr ⟨hfilter, List.ne_nil_of_mem ht, rfl⟩,
      (mem_sortByKey id _ t).mpr ht⟩

/-- Joining volume and suffix leads from the result back to the entries. -/
theorem bijOn (hscan : IsScan filter names result) :
    Set.BijOn (fun q : String × Timestamp => q.1 ++ "." ++ q.2.raw) (scanned result)
      {name | ∃ volume, Accepted filter names volume name} := by
  refine ⟨?_, ?_, ?_⟩
  · rintro ⟨volume, t⟩ hq
    obtain ⟨hfilter, name, hname, hparse⟩ := hscan.mem_scanned.mp hq
    obtain ⟨hsplit, hparsed⟩ := parseEntry_eq_some.mp hparse
    obtain ⟨rfl, -⟩ := splitName_eq_some.mp hsplit
    exact ⟨volume, hname, ⟨t.raw, hsplit, by rw [hparsed]; rfl⟩, hfilter⟩
  · rintro ⟨volume, t⟩ hq ⟨volume', t'⟩ hq' hjoin
    obtain ⟨-, name, -, hparse⟩ := hscan.mem_scanned.mp hq
    obtain ⟨-, name', -, hparse'⟩ := hscan.mem_scanned.mp hq'
    obtain ⟨rfl, -⟩ := splitName_eq_some.mp (parseEntry_eq_some.mp hparse).1
    obtain ⟨rfl, -⟩ := splitName_eq_some.mp (parseEntry_eq_some.mp hparse').1
    exact Option.some.inj (hparse.symm.trans ((congrArg parseEntry hjoin).trans hparse'))
  · rintro name ⟨volume, hname, ⟨suffix, hsplit, hsome⟩, hfilter⟩
    obtain ⟨t, ht⟩ := Option.isSome_iff_exists.mp hsome
    have hraw := Timestamp.parse_raw ht
    have hparse : parseEntry name = some (volume, t) :=
      parseEntry_eq_some.mpr ⟨by rw [hsplit, hraw], Timestamp.parsed_of_parse ht⟩
    obtain ⟨rfl, -⟩ := splitName_eq_some.mp hsplit
    refine ⟨(volume, t), hscan.mem_scanned.mpr ⟨hfilter, _, hname, hparse⟩, ?_⟩
    exact congrArg (fun raw => volume ++ "." ++ raw) hraw

end IsScan

/-! ## Sends name entries -/

/-- The path that the executor gives to `btrfs send`. -/
def entryPath (spec : SourceSpec) (name : String) : String := spec.path ++ "/" ++ name

/-- The arguments of `btrfs send` for a planned step. -/
def sendArgs (spec : SourceSpec) (volume : String) : RunStep → List String
  | .sendFull snap => [entryPath spec (subvolumeName volume snap.raw)]
  | .sendIncremental snap parent =>
    ["-p", entryPath spec (subvolumeName volume parent.raw),
      entryPath spec (subvolumeName volume snap.raw)]

/-- The streams of the environment are those of `btrfs send` processes in the source directory.
Starting one at a call with some arguments gives a process. -/
structure SendsFrom (spec : SourceSpec) (capacity : ℕ)
    (start : ℕ → List String → Except BbkarError SendProcess) (env : Env) : Prop where
  full : ∀ n name, readSubvolumeFull capacity (start n) spec.path name =
    .ok (env.readSubvolumeFull n name)
  incremental : ∀ n name parent, readSubvolumeIncremental capacity (start n) spec.path name parent =
    .ok (env.readSubvolumeIncremental n name parent)

/-- What a step sends is the output of the process with its arguments. -/
theorem readSubvolume_sends {spec : SourceSpec} {capacity : ℕ}
    {start : ℕ → List String → Except BbkarError SendProcess} {env : Env}
    (h : SendsFrom spec capacity start env) (volume : String) (step : RunStep) (w : World) :
    Effects.wp (readSubvolume env volume step)
      (fun stream w' => w' = w.tick ∧
        startedStream capacity (start w.calls (sendArgs spec volume step)) = .ok stream)
      (fun _ _ => False) w := by
  cases step with
  | sendFull snap => exact ⟨rfl, h.full w.calls (subvolumeName volume snap.raw)⟩
  | sendIncremental snap parent =>
    exact ⟨rfl, h.incremental w.calls (subvolumeName volume snap.raw)
      (subvolumeName volume parent.raw)⟩

/-- The arguments name the entries that the snapshots of the step were read from. -/
def NamesEntries (spec : SourceSpec) (names : List String) (volume : String) :
    RunStep → List String → Prop
  | .sendFull snap, args =>
    ∃ name ∈ names, parseEntry name = some (volume, snap) ∧ args = [entryPath spec name]
  | .sendIncremental snap parent, args =>
    ∃ name ∈ names, parseEntry name = some (volume, snap) ∧
      ∃ parentName ∈ names, parseEntry parentName = some (volume, parent) ∧
        args = ["-p", entryPath spec parentName, entryPath spec name]

/-- Planned sends go from source snapshots to source snapshots. -/
theorem Planned.mem_source {policy : SendPolicy} {src : SourceState} {st st' : PlanState}
    {snaps : List Timestamp} {steps : List RunStep}
    (h : Planned policy src st snaps steps st') :
    ∀ step ∈ steps, step.snap ∈ snaps ∧
      ∀ snap parent, step = .sendIncremental snap parent → parent ∈ src.snapshots := by
  induction h with
  | nil => simp
  | skip _ _ ih =>
    intro step hstep
    exact ⟨List.mem_cons_of_mem _ (ih step hstep).1, (ih step hstep).2⟩
  | full _ _ _ ih =>
    intro step hstep
    rcases List.mem_cons.mp hstep with rfl | hstep
    · exact ⟨List.mem_cons_self, by simp⟩
    · exact ⟨List.mem_cons_of_mem _ (ih step hstep).1, (ih step hstep).2⟩
  | incremental _ why _ ih =>
    intro step hstep
    rcases List.mem_cons.mp hstep with rfl | hstep
    · refine ⟨List.mem_cons_self, ?_⟩
      intro snap parent heq
      obtain ⟨-, rfl⟩ := RunStep.sendIncremental.inj heq
      exact (findParentCandidate_some why.candidate).1
    · exact ⟨List.mem_cons_of_mem _ (ih step hstep).1, (ih step hstep).2⟩

theorem sendArgs_namesEntries {spec : SourceSpec} {names : List String} {volume : String}
    {src : SourceState} (hentry : ∀ t ∈ src.snapshots, ∃ name ∈ names,
      parseEntry name = some (volume, t)) {dest : DestState} {policy : SendPolicy}
    {plan : RunPlan} (hplan : buildPlan src dest policy = .ok plan) {step : RunStep}
    (hstep : step ∈ plan.steps) :
    NamesEntries spec names volume step (sendArgs spec volume step) := by
  obtain ⟨st, st', -, hp⟩ := buildPlan_planned hplan
  obtain ⟨hsnap, hparent⟩ := hp.mem_source step hstep
  have hname : ∀ {name : String} {t : Timestamp}, parseEntry name = some (volume, t) →
      name = subvolumeName volume t.raw :=
    fun hparse => (splitName_eq_some.mp (parseEntry_eq_some.mp hparse).1).1
  cases step with
  | sendFull snap =>
    obtain ⟨name, hmem, hparse⟩ := hentry snap hsnap
    exact ⟨name, hmem, hparse, by rw [hname hparse]; rfl⟩
  | sendIncremental snap parent =>
    obtain ⟨name, hmem, hparse⟩ := hentry snap hsnap
    obtain ⟨parentName, hpmem, hpparse⟩ := hentry parent (hparent snap parent rfl)
    exact ⟨name, hmem, hparse, parentName, hpmem, hpparse, by
      rw [hname hparse, hname hpparse]; rfl⟩

/-- What a scan returns: the same for every order of the entries, one strictly increasing
series for each accepted basename, and exactly the accepted entries. -/
theorem inspectSource_partition (spec : SourceSpec) (names : List String) (hnames : names.Nodup) :
    ∃ result, inspectSource spec (listing names) = .ok result ∧
      (∀ order : List String, order.Perm names →
        inspectSource spec (listing order) = .ok result) ∧
      (∀ volume, (result volume).isSome = true ↔ ∃ name, Accepted spec.filter names volume name) ∧
      (∀ volume src, result volume = some src → src.volume.origName = volume ∧
        src.snapshots ≠ [] ∧ src.snapshots.Pairwise (· < ·)) ∧
      Set.BijOn (fun q : String × Timestamp => q.1 ++ "." ++ q.2.raw) (scanned result)
        {name | ∃ volume, Accepted spec.filter names volume name} ∧
      ∀ volume src, result volume = some src → ∀ dest policy plan,
        buildPlan src dest policy = .ok plan → ∀ step ∈ plan.steps,
          NamesEntries spec names volume step (sendArgs spec volume step) := by
  obtain ⟨result, hok, hscan⟩ := inspectSource_listing spec names
  refine ⟨result, hok, ?_, hscan.isSome_iff, fun volume src hsrc => hscan.series hnames hsrc,
    hscan.bijOn, ?_⟩
  · intro order hperm
    obtain ⟨result', hok', hscan'⟩ := inspectSource_listing spec order
    rw [hok', hscan.eq_of_perm hnames hperm hscan']
  · intro volume src hsrc dest policy plan hplan step hstep
    refine sendArgs_namesEntries (fun t ht => ?_) hplan hstep
    exact (hscan.mem_scanned.mp ⟨src, hsrc, ht⟩).2

/-- Basenames with dots, a leading dot and none at all, in some order. -/
def dottedListing : List String :=
  ["data.v1.20230102", ".20230101", ".cache.20230101_2", "data.v1.20230101", "plain"]

theorem inspectSource_partition_dotted : dottedListing.Nodup ∧
    ∃ result, inspectSource ⟨"/snapshots", ["data*"]⟩ (listing dottedListing) = .ok result ∧
      (∀ order : List String, order.Perm dottedListing →
        inspectSource ⟨"/snapshots", ["data*"]⟩ (listing order) = .ok result) ∧
      Set.BijOn (fun q : String × Timestamp => q.1 ++ "." ++ q.2.raw) (scanned result)
        {name | ∃ volume, Accepted ["data*"] dottedListing volume name} ∧
      (∀ volume src, result volume = some src → ∀ dest policy plan,
        buildPlan src dest policy = .ok plan → ∀ step ∈ plan.steps,
          NamesEntries ⟨"/snapshots", ["data*"]⟩ dottedListing volume step
            (sendArgs ⟨"/snapshots", ["data*"]⟩ volume step)) ∧
      (result "data.v1").map (·.snapshots) = some [.plain "20230101", .plain "20230102"] := by
  have hnodup : dottedListing.Nodup := by decide
  obtain ⟨result, hok, hperm, -, -, hbij, hsends⟩ :=
    inspectSource_partition ⟨"/snapshots", ["data*"]⟩ dottedListing hnodup
  have hscan : ((inspectSource ⟨"/snapshots", ["data*"]⟩ (listing dottedListing)).toOption.bind
      (· "data.v1")).map (·.snapshots) = some [.plain "20230101", .plain "20230102"] := by
    decide +kernel
  rw [hok] at hscan
  exact ⟨hnodup, result, hok, hperm, hbij, hsends, hscan⟩

end Bbkar
