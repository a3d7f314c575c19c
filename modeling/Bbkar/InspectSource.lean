import Bbkar.Plan
import Bbkar.Wildcard
import Bbkar.SuffixGrammar
import Bbkar.ObjectStore

/-!
# Scanning a source directory

Translation of `inspect_source`: entries are read as `BASENAME.SUFFIX`, cut at the last
dot, and grouped by basename. An entry whose suffix does not parse is skipped. The result
is a map, here the function that looks a volume up.
-/
namespace Bbkar
open KeySort Function

structure SourceSpec where
  path : String
  filter : List String

/-- What the file system answers: opening the directory may fail, and so may each entry. -/
structure SourceDir where
  isDir : Bool
  readDir : BR (List (BR String))

/-- Cuts the name of an entry at the last dot. -/
def splitName (name : String) : Option (String × String) :=
  (rsplitOnce '.' name.toList).map fun parts => (String.ofList parts.1, String.ofList parts.2)

/-- `BASENAME.SUFFIX` with a suffix that parses. -/
def parseEntry (name : String) : Option (String × Timestamp) :=
  (splitName name).bind fun parts =>
    (Timestamp.parse parts.2).map fun snapshot => (parts.1, snapshot)

abbrev Grouped := String → Option (List Timestamp)

def groupEntry (grouped : Grouped) (entry : BR String) : BR Grouped := do
  let name ← entry
  match parseEntry name with
  | none => return grouped
  | some (basename, snapshot) =>
    return update grouped basename (some ((grouped basename).getD [] ++ [snapshot]))

def inspectSource (spec : SourceSpec) (dir : SourceDir) :
    BR (String → Option SourceState) := do
  if dir.isDir = false then throw (.err (.invalidSourcePath spec.path))
  let entries ← dir.readDir
  let grouped ← entries.foldlM groupEntry (fun _ => none)
  return fun basename =>
    if spec.filter.any (wildcardMatch · basename) then
      (grouped basename).map fun snapshots => ⟨Series.new basename snapshots⟩
    else none

/-! ## The groups -/

/-- The snapshots of one volume among the entries. -/
def snapshotsNamed (basename : String) (names : List String) : List Timestamp :=
  names.filterMap fun name =>
    (parseEntry name).bind fun e => if e.1 = basename then some e.2 else none

theorem mem_snapshotsNamed {basename : String} {names : List String} {t : Timestamp} :
    t ∈ snapshotsNamed basename names ↔ ∃ name ∈ names, parseEntry name = some (basename, t) := by
  simp only [snapshotsNamed, List.mem_filterMap, Option.bind_eq_some_iff]
  constructor
  · rintro ⟨name, hname, ⟨b, s⟩, hparse, h⟩
    split_ifs at h with hb
    simp only at hb
    simp only [Option.some.injEq] at h
    exact ⟨name, hname, by rw [hparse, hb, h]⟩
  · rintro ⟨name, hname, hparse⟩
    exact ⟨name, hname, _, hparse, by simp⟩

/-- The map that holds the groups of the names read so far. -/
def Groups (names : List String) (grouped : Grouped) : Prop :=
  ∀ basename, grouped basename =
    if snapshotsNamed basename names = [] then none else some (snapshotsNamed basename names)

theorem Groups.groupEntry {names : List String} {grouped : Grouped} {entry : BR String}
    {next : Grouped} (hg : Groups names grouped) (h : groupEntry grouped entry = .ok next) :
    ∃ name, entry = .ok name ∧ Groups (names ++ [name]) next := by
  cases entry with
  | error e => cases h
  | ok name =>
    refine ⟨name, rfl, fun basename => ?_⟩
    have happend : snapshotsNamed basename (names ++ [name]) =
        snapshotsNamed basename names ++ snapshotsNamed basename [name] :=
      List.filterMap_append
    cases hparse : parseEntry name with
    | none =>
      have hsame : next = grouped := by
        simpa [Bbkar.groupEntry, hparse, bind, Except.bind, pure, Except.pure] using h.symm
      have hnone : snapshotsNamed basename [name] = [] := by
        simp [snapshotsNamed, hparse]
      rw [hsame, hg basename, happend, hnone, List.append_nil]
    | some e =>
      obtain ⟨b, snapshot⟩ := e
      have hnext : next = update grouped b (some ((grouped b).getD [] ++ [snapshot])) := by
        simpa [Bbkar.groupEntry, hparse, bind, Except.bind, pure, Except.pure] using h.symm
      by_cases hb : b = basename
      · have hone : snapshotsNamed basename [name] = [snapshot] := by
          simp [snapshotsNamed, hparse, hb]
        subst hb
        rw [hnext, update_self, hg b, happend, hone]
        split_ifs <;> simp_all
      · have hnone : snapshotsNamed basename [name] = [] := by
          simp [snapshotsNamed, hparse, hb]
        rw [hnext, update_of_ne (Ne.symm hb), hg basename, happend, hnone, List.append_nil]

/-- A scan that returns has read every entry. -/
theorem foldlM_groupEntry {entries : List (BR String)} {names : List String}
    {grouped last : Grouped} (hg : Groups names grouped)
    (h : entries.foldlM Bbkar.groupEntry grouped = .ok last) :
    ∃ rest, entries = rest.map Except.ok ∧ Groups (names ++ rest) last := by
  induction entries generalizing names grouped with
  | nil =>
    have hlast : grouped = last := by simpa [pure, Except.pure] using h
    exact ⟨[], rfl, by simpa [← hlast] using hg⟩
  | cons entry entries ih =>
    rw [List.foldlM_cons] at h
    cases hstep : Bbkar.groupEntry grouped entry with
    | error e =>
      rw [hstep] at h
      cases h
    | ok next =>
      rw [hstep] at h
      obtain ⟨name, rfl, hnext⟩ := hg.groupEntry hstep
      obtain ⟨rest, rfl, hlast⟩ := ih hnext h
      exact ⟨name :: rest, rfl, by simpa using hlast⟩

/-- What a scan that returns has found: for every volume that matches the filter and has
snapshots, the sorted series of them. -/
theorem inspectSource_ok {spec : SourceSpec} {dir : SourceDir}
    {result : String → Option SourceState} (h : inspectSource spec dir = .ok result) :
    ∃ names : List String, dir.readDir = .ok (names.map Except.ok) ∧
      ∀ volume src, result volume = some src ↔
        spec.filter.any (wildcardMatch · volume) = true ∧ snapshotsNamed volume names ≠ [] ∧
          src = ⟨Series.new volume (snapshotsNamed volume names)⟩ := by
  unfold inspectSource at h
  split_ifs at h with hdir
  · cases h
  cases hread : dir.readDir with
  | error e =>
    rw [hread] at h
    cases h
  | ok entries =>
    cases hfold : entries.foldlM groupEntry (fun _ => none) with
    | error e =>
      simp [hread, hfold, bind, Except.bind] at h
    | ok grouped =>
      have hempty : Groups [] (fun _ => none) := fun _ => by simp [snapshotsNamed]
      obtain ⟨names, rfl, hgroups⟩ := foldlM_groupEntry hempty hfold
      refine ⟨names, rfl, fun volume src => ?_⟩
      have hresult : result = fun basename =>
          if spec.filter.any (wildcardMatch · basename) then
            (grouped basename).map fun snapshots => ⟨Series.new basename snapshots⟩
          else none := by
        simpa [hread, hfold, bind, Except.bind, pure, Except.pure] using h.symm
      rw [hresult]
      simp only [hgroups volume, List.nil_append]
      by_cases hfilter : spec.filter.any (wildcardMatch · volume) = true
      · by_cases hnone : snapshotsNamed volume names = []
        · simp [hnone]
        · rw [if_pos hfilter, if_neg hnone]
          simp only [Option.map_some, Option.some.injEq, hfilter, ne_eq, hnone, not_false_eq_true,
            true_and, eq_comm]
      · rw [if_neg hfilter]
        simp only [hfilter, reduceCtorEq, false_and]

/-! ## What becomes a snapshot -/

theorem parseEntry_eq_some {name volume : String} {t : Timestamp} :
    parseEntry name = some (volume, t) ↔ splitName name = some (volume, t.raw) ∧ t.Parsed := by
  simp only [parseEntry, Option.bind_eq_some_iff, Option.map_eq_some_iff, Prod.mk.injEq]
  constructor
  · rintro ⟨⟨b, suffix⟩, hsplit, snapshot, hparse, rfl, rfl⟩
    exact ⟨by rw [hsplit, Timestamp.parse_raw hparse], Timestamp.parsed_of_parse hparse⟩
  · rintro ⟨hsplit, hparsed⟩
    exact ⟨_, hsplit, t, hparsed, rfl, rfl⟩

/-- The snapshots in the result of a scan are those that the entries name. -/
theorem inspectSource_mem {spec : SourceSpec} {dir : SourceDir}
    {result : String → Option SourceState} (h : inspectSource spec dir = .ok result) :
    ∃ names : List String, dir.readDir = .ok (names.map Except.ok) ∧
      ∀ volume t, (∃ src, result volume = some src ∧ t ∈ src.snapshots) ↔
        spec.filter.any (wildcardMatch · volume) = true ∧ t.Parsed ∧
          ∃ name ∈ names, splitName name = some (volume, t.raw) := by
  obtain ⟨names, hread, hresult⟩ := inspectSource_ok h
  refine ⟨names, hread, fun volume t => ?_⟩
  have hsnaps : t ∈ (Series.new volume (snapshotsNamed volume names)).snapshots ↔
      ∃ name ∈ names, splitName name = some (volume, t.raw) ∧ t.Parsed := by
    simp only [Series.new, mem_sortByKey, mem_snapshotsNamed, parseEntry_eq_some]
  constructor
  · rintro ⟨src, hsrc, ht⟩
    obtain ⟨hfilter, -, rfl⟩ := (hresult volume src).mp hsrc
    obtain ⟨name, hname, hsplit, hparsed⟩ := hsnaps.mp ht
    exact ⟨hfilter, hparsed, name, hname, hsplit⟩
  · rintro ⟨hfilter, hparsed, name, hname, hsplit⟩
    have ht := hsnaps.mpr ⟨name, hname, hsplit, hparsed⟩
    have hmem : t ∈ snapshotsNamed volume names := by
      simpa [Series.new] using ht
    exact ⟨_, (hresult volume _).mpr ⟨hfilter, List.ne_nil_of_mem hmem, rfl⟩, ht⟩

/-- No snapshot but those of documented form come out of a scan exactly when every entry of
a matching volume has an empty suffix or one of documented form. -/
theorem inspectSource_documented_iff (spec : SourceSpec) (dir : SourceDir)
    (result : String → Option SourceState) (h : inspectSource spec dir = .ok result) :
    (∀ s, AcceptsDocumented s ↔ s = "" ∨ Documented s) ∧
      ∃ names : List String, dir.readDir = .ok (names.map Except.ok) ∧
        ((∀ volume src, result volume = some src → ∀ t ∈ src.snapshots, Documented t.raw) ↔
          ∀ name ∈ names, ∀ volume suffix, splitName name = some (volume, suffix) →
            spec.filter.any (wildcardMatch · volume) = true →
              suffix = "" ∨ Documented suffix) := by
  obtain ⟨names, hread, hmem⟩ := inspectSource_mem h
  refine ⟨fun s => acceptsDocumented_iff, names, hread, ?_, ?_⟩
  · intro hdoc name hname volume suffix hsplit hfilter
    by_cases hs : suffix = ""
    · exact Or.inl hs
    · obtain ⟨t, ht⟩ := Timestamp.parse_isSome hs
      have hraw := Timestamp.parse_raw ht
      obtain ⟨src, hsrc, htmem⟩ := (hmem volume t).mpr
        ⟨hfilter, Timestamp.parsed_of_parse ht, name, hname, by rw [hraw]; exact hsplit⟩
      exact Or.inr (hraw ▸ hdoc volume src hsrc t htmem)
  · intro hentries volume src hsrc t ht
    obtain ⟨hfilter, hparsed, name, hname, hsplit⟩ := (hmem volume t).mp ⟨src, hsrc, ht⟩
    rcases hentries name hname volume t.raw hsplit hfilter with hempty | hdoc
    · exact absurd hempty (Timestamp.parse_ne_empty hparsed)
    · exact hdoc

/-- A directory with a snapshot and a foreign file. -/
def mixedDir : SourceDir :=
  ⟨true, .ok [.ok "root.20230101T1531_2", .ok "root.conf"]⟩

theorem inspectSource_foreign :
    ¬ AcceptsDocumented "conf" ∧ (Timestamp.parse "conf").isSome = true ∧
      (inspectSource ⟨"/snapshots", ["*"]⟩ mixedDir).toOption.bind
        (fun result => (result "root").map fun src => src.snapshots.map Timestamp.raw) =
          some ["20230101T1531_2", "conf"] := by
  refine ⟨?_, by decide +kernel⟩
  rw [acceptsDocumented_iff]
  decide +kernel

theorem inspectSource_documented_iff_mixed :
    ∃ result, inspectSource ⟨"/snapshots", ["*"]⟩ mixedDir = .ok result ∧
      ∃ names : List String, mixedDir.readDir = .ok (names.map Except.ok) ∧
        ((∀ volume src, result volume = some src → ∀ t ∈ src.snapshots, Documented t.raw) ↔
          ∀ name ∈ names, ∀ volume suffix, splitName name = some (volume, suffix) →
            ["*"].any (wildcardMatch · volume) = true → suffix = "" ∨ Documented suffix) :=
  ⟨_, rfl, (inspectSource_documented_iff ⟨"/snapshots", ["*"]⟩ mixedDir _ rfl).2⟩

end Bbkar
