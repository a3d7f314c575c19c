import Bbkar.SortedSets
import Bbkar.SourcePartition

/-!
# Listing snapshots

Translation of the two tables of `ls`. A line is given by the name and the state in it; the
padding of the columns is left out. The entries of the restore root are an argument, empty
when the root is no directory.
-/
namespace Bbkar
open SortedSets

/-! ## Tables -/

/-- The rows before their names are printed. -/
def snapshotTable (dest : DestState) (localSnapshots : List Timestamp) :
    BR (List (Timestamp × String)) :=
  unionTable .panic "local-only" "remote-only" "synced" (btreeSet localSnapshots)
    (btreeSet (dest.archives.map (·.timestamp)))

def printSnapshotTable (volume : String) (dest : DestState) (localSnapshots : List Timestamp) :
    BR (List (String × String)) :=
  (snapshotTable dest localSnapshots).map fun rows =>
    rows.map fun row => (subvolumeName volume row.1.raw, row.2)

/-- What follows `VOLUME.` in the entries that start so. -/
def restoredRaws (volume : String) (rootEntries : List String) : List String :=
  btreeSet (rootEntries.filterMap fun name =>
    ((volume ++ ".").toList.isPrefixOf? name.toList).map String.ofList)

def restoreTable (volume : String) (dest : DestState) (rootEntries : List String) :
    BR (List (String × String)) :=
  unionTable .panic "not-restored" "restored-only" "restored"
    (btreeSet ((btreeSet (dest.archives.map (·.timestamp))).map Timestamp.raw))
    (restoredRaws volume rootEntries)

def printRestoreTable (volume : String) (dest : DestState) (rootEntries : List String) :
    BR (List (String × String)) :=
  (restoreTable volume dest rootEntries).map fun rows =>
    rows.map fun row => (subvolumeName volume row.1, row.2)

/-! ## What a restore table says -/

theorem mem_restoredRaws {volume raw : String} {rootEntries : List String} :
    raw ∈ restoredRaws volume rootEntries ↔ subvolumeName volume raw ∈ rootEntries := by
  rw [restoredRaws, mem_btreeSet, List.mem_filterMap]
  simp only [Option.map_eq_some_iff, List.isPrefixOf?_eq_some_iff_append_eq]
  constructor
  · rintro ⟨name, hname, rest, hrest, rfl⟩
    have hjoin : subvolumeName volume (String.ofList rest) = name :=
      String.toList_injective (by simpa [subvolumeName] using hrest)
    rwa [hjoin]
  · intro hmem
    exact ⟨_, hmem, raw.toList, by simp [subvolumeName], by simp⟩

/-- A name with the volume in front is shown by its membership in the root and the archives. -/
theorem printRestoreTable_spec (volume : String) (dest : DestState) (rootEntries : List String) :
    ∃ rows, printRestoreTable volume dest rootEntries = .ok rows ∧
      ∀ name state, (name, state) ∈ rows ↔ ∃ raw, name = subvolumeName volume raw ∧
        ((raw ∈ raws dest.archives ∧ name ∉ rootEntries ∧ state = "not-restored") ∨
          (raw ∉ raws dest.archives ∧ name ∈ rootEntries ∧ state = "restored-only") ∨
          (raw ∈ raws dest.archives ∧ name ∈ rootEntries ∧ state = "restored")) := by
  obtain ⟨rows, hrows, htable⟩ := unionTable_spec Halt.panic "not-restored" "restored-only"
    "restored" (btreeSet ((btreeSet (dest.archives.map (·.timestamp))).map Timestamp.raw))
    (restoredRaws volume rootEntries)
  have harchived : ∀ raw, raw ∈ btreeSet ((btreeSet (dest.archives.map (·.timestamp))).map
      Timestamp.raw) ↔ raw ∈ raws dest.archives := by
    intro raw
    simp [VolumeArchive.raw]
  refine ⟨_, by rw [printRestoreTable, restoreTable, hrows]; rfl, fun name state => ?_⟩
  simp only [List.mem_map, Prod.exists, htable.row, harchived, mem_restoredRaws]
  constructor
  · rintro ⟨raw, label, hrow, heq⟩
    obtain ⟨rfl, rfl⟩ := Prod.mk.inj heq
    exact ⟨raw, rfl, hrow⟩
  · rintro ⟨raw, rfl, hrow⟩
    exact ⟨raw, state, hrow, rfl⟩

/-- The rows that say `restored` or `restored-only`. -/
def ShownRestored (rows : List (String × String)) (name : String) : Prop :=
  (name, "restored") ∈ rows ∨ (name, "restored-only") ∈ rows

def Shown (rows : List (String × String)) (name : String) : Prop :=
  ∃ state, (name, state) ∈ rows

/-- The table of a volume shows the entries that the scan attributes to it, and the archives
that are not in the root. -/
structure RestoreTableRight (volume : String) (dest : DestState) (rootEntries : List String)
    (rows : List (String × String)) : Prop where
  restored : ∀ name, ShownRestored rows name ↔
    name ∈ rootEntries ∧ ∃ suffix, splitName name = some (volume, suffix)
  notRestored : ∀ name, (name, "not-restored") ∈ rows ↔
    (∃ raw ∈ raws dest.archives, name = subvolumeName volume raw) ∧ name ∉ rootEntries

/-- The tables of some volumes attribute the entries of the root as the scan does. -/
def RestoreTablesRight (volumes : Set String) (dest : String → DestState)
    (rootEntries : List String) : Prop :=
  (∀ v ∈ volumes, ∃ rows, printRestoreTable v (dest v) rootEntries = .ok rows ∧
    RestoreTableRight v (dest v) rootEntries rows) ∧
  ∀ v ∈ volumes, ∀ w ∈ volumes, ∀ rows rows',
    printRestoreTable v (dest v) rootEntries = .ok rows →
    printRestoreTable w (dest w) rootEntries = .ok rows' →
    ∀ entry ∈ rootEntries, Shown rows entry → Shown rows' entry → v = w

theorem shownRestored_iff {volume : String} {dest : DestState} {rootEntries : List String}
    {rows : List (String × String)} (h : printRestoreTable volume dest rootEntries = .ok rows)
    {name : String} :
    ShownRestored rows name ↔ name ∈ rootEntries ∧ ∃ raw, name = subvolumeName volume raw := by
  obtain ⟨rows', hrows, hmem⟩ := printRestoreTable_spec volume dest rootEntries
  obtain rfl : rows' = rows := Except.ok.inj (hrows.symm.trans h)
  rw [ShownRestored, hmem, hmem]
  constructor
  · rintro (⟨raw, rfl, h | h | h⟩ | ⟨raw, rfl, h | h | h⟩)
    all_goals simp at h
    all_goals exact ⟨h.2, raw, rfl⟩
  · rintro ⟨hentry, raw, rfl⟩
    by_cases harchived : raw ∈ raws dest.archives
    · exact Or.inl ⟨raw, rfl, by simp [harchived, hentry]⟩
    · exact Or.inr ⟨raw, rfl, by simp [harchived, hentry]⟩

theorem notRestored_iff {volume : String} {dest : DestState} {rootEntries : List String}
    {rows : List (String × String)} (h : printRestoreTable volume dest rootEntries = .ok rows)
    {name : String} :
    (name, "not-restored") ∈ rows ↔
      (∃ raw ∈ raws dest.archives, name = subvolumeName volume raw) ∧ name ∉ rootEntries := by
  obtain ⟨rows', hrows, hmem⟩ := printRestoreTable_spec volume dest rootEntries
  obtain rfl : rows' = rows := Except.ok.inj (hrows.symm.trans h)
  rw [hmem]
  constructor
  · rintro ⟨raw, rfl, h | h | h⟩
    · exact ⟨⟨raw, h.1, rfl⟩, h.2.1⟩
    · simp at h
    · simp at h
  · rintro ⟨⟨raw, hraw, rfl⟩, hentry⟩
    exact ⟨raw, rfl, Or.inl ⟨hraw, hentry, rfl⟩⟩

/-- Every shown entry of the root is shown as restored. -/
theorem shown_entry {volume : String} {dest : DestState} {rootEntries : List String}
    {rows : List (String × String)} (h : printRestoreTable volume dest rootEntries = .ok rows)
    {entry : String} (hentry : entry ∈ rootEntries) :
    Shown rows entry ↔ ∃ raw, entry = subvolumeName volume raw := by
  obtain ⟨rows', hrows, hmem⟩ := printRestoreTable_spec volume dest rootEntries
  obtain rfl : rows' = rows := Except.ok.inj (hrows.symm.trans h)
  constructor
  · rintro ⟨state, hstate⟩
    obtain ⟨raw, hraw, -⟩ := (hmem entry state).mp hstate
    exact ⟨raw, hraw⟩
  · intro hraw
    rcases (shownRestored_iff h).mpr ⟨hentry, hraw⟩ with hshown | hshown
    · exact ⟨_, hshown⟩
    · exact ⟨_, hshown⟩

/-- The tables are right exactly when nothing after `VOLUME.` in an entry of the root contains
a further dot, whichever volume of the set is taken. -/
theorem restoreTables_right_iff (volumes : Set String) (dest : String → DestState)
    (rootEntries : List String) :
    RestoreTablesRight volumes dest rootEntries ↔
      ∀ v ∈ volumes, ∀ rest, v ++ "." ++ rest ∈ rootEntries → '.' ∉ rest.toList := by
  constructor
  · rintro ⟨hright, -⟩ v hv rest hentry
    obtain ⟨rows, hrows, htable⟩ := hright v hv
    have hshown := (shownRestored_iff hrows).mpr ⟨hentry, rest, rfl⟩
    obtain ⟨-, suffix, hsplit⟩ := (htable.restored _).mp hshown
    obtain ⟨hjoin, hdot⟩ := splitName_eq_some.mp hsplit
    obtain rfl : rest = suffix := subvolumeName_injective v hjoin
    exact hdot
  · intro hcond
    -- membership by prefix is then membership by the last dot
    have hsplit : ∀ v ∈ volumes, ∀ name ∈ rootEntries,
        (∃ raw, name = subvolumeName v raw) ↔ ∃ suffix, splitName name = some (v, suffix) := by
      intro v hv name hname
      constructor
      · rintro ⟨raw, rfl⟩
        exact ⟨raw, splitName_eq_some.mpr ⟨rfl, hcond v hv raw hname⟩⟩
      · rintro ⟨suffix, h⟩
        exact ⟨suffix, (splitName_eq_some.mp h).1⟩
    refine ⟨fun v hv => ?_, ?_⟩
    · obtain ⟨rows, hrows, -⟩ := printRestoreTable_spec v (dest v) rootEntries
      refine ⟨rows, hrows, fun name => ?_, fun name => notRestored_iff hrows⟩
      rw [shownRestored_iff hrows]
      exact and_congr_right (hsplit v hv name)
    · intro v hv w hw rows rows' hrows hrows' entry hentry hshown hshown'
      obtain ⟨s, hs⟩ := (hsplit v hv entry hentry).mp ((shown_entry hrows hentry).mp hshown)
      obtain ⟨t, ht⟩ := (hsplit w hw entry hentry).mp ((shown_entry hrows' hentry).mp hshown')
      rw [hs] at ht
      exact congrArg Prod.fst (Option.some.inj ht)

/-- One volume's name is another's, a dot and something more. -/
theorem restoreTables_dottedPrefix :
    ¬ RestoreTablesRight {"a", "a.b"} (fun _ => ⟨none⟩) ["a.b.20230101"] ∧
      printRestoreTable "a" ⟨none⟩ ["a.b.20230101"] = .ok [("a.b.20230101", "restored-only")] ∧
      printRestoreTable "a.b" ⟨none⟩ ["a.b.20230101"] = .ok [("a.b.20230101", "restored-only")] ∧
      splitName "a.b.20230101" = some ("a.b", "20230101") := by
  have ha : printRestoreTable "a" ⟨none⟩ ["a.b.20230101"] =
      .ok [("a.b.20230101", "restored-only")] := by decide +kernel
  have hab : printRestoreTable "a.b" ⟨none⟩ ["a.b.20230101"] =
      .ok [("a.b.20230101", "restored-only")] := by decide +kernel
  refine ⟨fun h => ?_, ha, hab, by decide +kernel⟩
  have hsame := h.2 "a" (by simp) "a.b" (by simp) _ _ ha hab "a.b.20230101" (by simp)
    ⟨"restored-only", by simp⟩ ⟨"restored-only", by simp⟩
  simp at hsame

end Bbkar
