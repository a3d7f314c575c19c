import Bbkar.Convergence
import Bbkar.Ls
import Bbkar.PlanDates

/-!
# What `ls` shows and what `run` sends

The table compares whole timestamps, the planner compares names. Both see the same snapshots
as archived when every archive of a source snapshot's name has the fields that parsing gives.
-/
namespace Bbkar
open SortedSets

/-- The rows are those of the source and the archives, each once and in order. -/
theorem snapshotTable_spec (dest : DestState) (localSnapshots : List Timestamp) :
    ∃ rows, snapshotTable dest localSnapshots = .ok rows ∧
      IsUnionTable "local-only" "remote-only" "synced" (btreeSet localSnapshots)
        (btreeSet (dest.archives.map (·.timestamp))) rows :=
  unionTable_spec ..

/-- The table and the plan agree on every timestamp. -/
structure LsAgrees (src : SourceState) (dest : DestState) (plan : RunPlan)
    (rows : List (Timestamp × String)) : Prop where
  localOnly : ∀ t, (t, "local-only") ∈ rows ↔ t ∈ plan.steps.map RunStep.snap
  synced : ∀ t, (t, "synced") ∈ rows ↔ t ∈ src.snapshots ∧ t ∉ plan.steps.map RunStep.snap
  covers : ∀ t, t ∈ rows.map Prod.fst ↔ t ∈ src.snapshots ∨ ∃ a ∈ dest.archives, a.timestamp = t
  strict : (rows.map Prod.fst).Pairwise (· < ·)

/-- A source snapshot whose name is archived is archived with its own fields. -/
def ArchivedAsParsed (src : SourceState) (dest : DestState) : Prop :=
  ∀ s ∈ src.snapshots, s.raw ∈ raws dest.archives → ∃ a ∈ dest.archives, a.timestamp = s

theorem localOnly_iff {src : SourceState} {dest : DestState} {rows : List (Timestamp × String)}
    (h : IsUnionTable "local-only" "remote-only" "synced" (btreeSet src.snapshots)
      (btreeSet (dest.archives.map (·.timestamp))) rows) (t : Timestamp) :
    (t, "local-only") ∈ rows ↔ t ∈ src.snapshots ∧ ¬ ∃ a ∈ dest.archives, a.timestamp = t := by
  rw [h.row]
  simp

theorem synced_iff {src : SourceState} {dest : DestState} {rows : List (Timestamp × String)}
    (h : IsUnionTable "local-only" "remote-only" "synced" (btreeSet src.snapshots)
      (btreeSet (dest.archives.map (·.timestamp))) rows) (t : Timestamp) :
    (t, "synced") ∈ rows ↔ t ∈ src.snapshots ∧ ∃ a ∈ dest.archives, a.timestamp = t := by
  rw [h.row]
  simp

theorem mem_rows_iff {src : SourceState} {dest : DestState} {rows : List (Timestamp × String)}
    (h : IsUnionTable "local-only" "remote-only" "synced" (btreeSet src.snapshots)
      (btreeSet (dest.archives.map (·.timestamp))) rows) (t : Timestamp) :
    t ∈ rows.map Prod.fst ↔ t ∈ src.snapshots ∨ ∃ a ∈ dest.archives, a.timestamp = t := by
  have harchived : t ∈ btreeSet (dest.archives.map (·.timestamp)) ↔
      ∃ a ∈ dest.archives, a.timestamp = t := by simp
  have hlocal : t ∈ btreeSet src.snapshots ↔ t ∈ src.snapshots := mem_btreeSet
  rw [← harchived, ← hlocal]
  simp only [List.mem_map, Prod.exists, exists_and_right, exists_eq_right, h.row]
  by_cases hl : t ∈ btreeSet src.snapshots <;>
    by_cases hr : t ∈ btreeSet (dest.archives.map (·.timestamp)) <;> simp [hl, hr]

/-- The table agrees with a plan exactly when the planner's comparison by name loses nothing. -/
theorem lsAgrees_of_plan {src : SourceState} (hsrc : src.Parsed) {dest : DestState}
    {policy : SendPolicy} {plan : RunPlan} (hplan : buildPlan src dest policy = .ok plan) :
    (∃ rows, snapshotTable dest src.snapshots = .ok rows ∧ LsAgrees src dest plan rows) ↔
      ArchivedAsParsed src dest := by
  obtain ⟨-, hplanned⟩ := buildPlan_exact hsrc hplan
  obtain ⟨rows, hrows, htable⟩ := snapshotTable_spec dest src.snapshots
  have hraw : ∀ {t : Timestamp}, (∃ a ∈ dest.archives, a.timestamp = t) →
      t.raw ∈ raws dest.archives := by
    rintro t ⟨a, ha, rfl⟩
    exact mem_raws.mpr ⟨a, ha, rfl⟩
  constructor
  · rintro ⟨rows', hrows', hagrees⟩ s hs hname
    obtain rfl : rows' = rows := Except.ok.inj (hrows'.symm.trans hrows)
    by_contra hnone
    have hlocal := (localOnly_iff htable s).mpr ⟨hs, hnone⟩
    exact ((hplanned s).mp ((hagrees.localOnly s).mp hlocal)).2 hname
  · intro hparsed
    refine ⟨rows, hrows, fun t => ?_, fun t => ?_, mem_rows_iff htable, htable.strict⟩
    · rw [localOnly_iff htable, hplanned]
      exact and_congr_right fun ht => not_congr ⟨hraw, hparsed t ht⟩
    · rw [synced_iff htable, hplanned]
      refine and_congr_right fun ht => ?_
      rw [not_and, not_not]
      exact ⟨fun ha _ => hraw ha, fun h => hparsed t ht (h ht)⟩

/-- `ls` and the planner agree on what is missing exactly when the planner can compare its
dates, and archived names carry the fields of the source snapshots. -/
theorem lsAgrees_iff (src : SourceState) (hsrc : src.Parsed) (dest : DestState)
    (hacyclic : AcyclicParents dest.archives) (policy : SendPolicy) :
    (∃ plan rows, buildPlan src dest policy = .ok plan ∧
      snapshotTable dest src.snapshots = .ok rows ∧ LsAgrees src dest plan rows) ↔
      DatesCompare src dest ∧ ArchivedAsParsed src dest := by
  obtain ⟨st, hi⟩ := initialPlanState_isOk hacyclic
  have hdates : (∃ plan, buildPlan src dest policy = .ok plan) ↔ _ :=
    buildPlan_isOk_iff_datesCompare hsrc hi
  constructor
  · rintro ⟨plan, rows, hplan, hrows, hagrees⟩
    exact ⟨hdates.mp ⟨plan, hplan⟩, (lsAgrees_of_plan hsrc hplan).mp ⟨rows, hrows, hagrees⟩⟩
  · rintro ⟨hcompare, hparsed⟩
    obtain ⟨plan, hplan⟩ := hdates.mpr hcompare
    obtain ⟨rows, hrows, hagrees⟩ := (lsAgrees_of_plan hsrc hplan).mpr hparsed
    exact ⟨plan, rows, hplan, hrows, hagrees⟩

/-- One snapshot, and an archive of its name whose fields were edited. -/
def editedSource : SourceState := ⟨Series.new "root" [.plain "20230101"]⟩

def editedMeta : DestMeta := DestMeta.new 0 0 [⟨⟨"20230101", "20230101", some "_9"⟩, none, []⟩]

theorem lsAgrees_edited :
    editedSource.Parsed ∧ AcyclicParents (DestState.archives ⟨some editedMeta⟩) ∧
      buildPlan editedSource ⟨some editedMeta⟩ ⟨⟨7⟩, some 30⟩ = .ok ⟨[]⟩ ∧
      snapshotTable ⟨some editedMeta⟩ editedSource.snapshots =
        .ok [(.plain "20230101", "local-only"),
          (⟨"20230101", "20230101", some "_9"⟩, "remote-only")] ∧
      ¬ ∃ plan rows, buildPlan editedSource ⟨some editedMeta⟩ ⟨⟨7⟩, some 30⟩ = .ok plan ∧
        snapshotTable ⟨some editedMeta⟩ editedSource.snapshots = .ok rows ∧
        LsAgrees editedSource ⟨some editedMeta⟩ plan rows := by
  have hacyclic : AcyclicParents (DestState.archives ⟨some editedMeta⟩) :=
    (WellFormed.of_full (by decide) (by decide)).acyclic
  have hplan : buildPlan editedSource ⟨some editedMeta⟩ ⟨⟨7⟩, some 30⟩ = .ok ⟨[]⟩ := by
    decide +kernel
  have hrows : snapshotTable ⟨some editedMeta⟩ editedSource.snapshots =
      .ok [(.plain "20230101", "local-only"),
        (⟨"20230101", "20230101", some "_9"⟩, "remote-only")] := by decide +kernel
  refine ⟨by decide, hacyclic, hplan, hrows, ?_⟩
  rintro ⟨plan, rows, hplan', hrows', hagrees⟩
  obtain rfl := Except.ok.inj (hplan.symm.trans hplan')
  obtain rfl := Except.ok.inj (hrows.symm.trans hrows')
  have hlocal := (hagrees.localOnly (.plain "20230101")).mp (by simp)
  simp at hlocal

/-- With one snapshot archived and another one new, the table is right. -/
theorem lsAgrees_iff_weekly :
    ((∃ plan rows, buildPlan gapSource ⟨some gapMeta⟩ ⟨⟨7⟩, some 30⟩ = .ok plan ∧
      snapshotTable ⟨some gapMeta⟩ gapSource.snapshots = .ok rows ∧
      LsAgrees gapSource ⟨some gapMeta⟩ plan rows) ↔
      DatesCompare gapSource ⟨some gapMeta⟩ ∧ ArchivedAsParsed gapSource ⟨some gapMeta⟩) ∧
    ∃ plan rows, buildPlan gapSource ⟨some gapMeta⟩ ⟨⟨7⟩, some 30⟩ = .ok plan ∧
      snapshotTable ⟨some gapMeta⟩ gapSource.snapshots = .ok rows ∧
      LsAgrees gapSource ⟨some gapMeta⟩ plan rows := by
  have hw : WellFormed (DestState.archives ⟨some gapMeta⟩) := .of_full (by decide) (by decide)
  have hiff := lsAgrees_iff gapSource (by decide) ⟨some gapMeta⟩ hw.acyclic ⟨⟨7⟩, some 30⟩
  refine ⟨hiff, hiff.mpr ⟨?_, ?_⟩⟩
  · obtain ⟨st, hi⟩ := initialPlanState_isOk hw.acyclic
    have hplan : buildPlan gapSource ⟨some gapMeta⟩ ⟨⟨7⟩, some 30⟩ =
        .ok ⟨[.sendIncremental (.plain "20230102") (.plain "20230101"),
          .sendIncremental (.plain "20230104") (.plain "20230102")]⟩ := by decide +kernel
    exact (buildPlan_isOk_iff_datesCompare (by decide) hi).mp ⟨_, hplan⟩
  · unfold ArchivedAsParsed
    decide

end Bbkar
