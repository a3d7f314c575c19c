import Bbkar.ParentWalks
import Bbkar.RestoreTargets

/-!
# Depths and restore chains

The memoised depth of an archive is the length of its restore plan less one, in whatever
order the depths are computed and at every moment of the computation. One archive escapes
this: the planner of restores panics on a recorded parent with the empty name.
-/
namespace Bbkar
open ParentForest

/-! ## The length of a restore plan -/

/-- On well-formed metadata the walk from an archive collects its lineage. -/
theorem parentWalk_lineage {archives : List VolumeArchive} (hw : WellFormed archives)
    {a : VolumeArchive} (ha : a ∈ archives) :
    ∃ above, parentWalk archives archives.length [a] a = .ok (above ++ [a]) ∧
      Lineage (parentForest archives) a.raw ((above ++ [a]).map VolumeArchive.raw) ∧
      ∀ b ∈ above, b ∈ archives := by
  obtain ⟨l, hl⟩ := hw.exists_lineage ha
  obtain ⟨above, hwalk, hraws, hmem⟩ := parentWalk_eq hw hl archives.length [] a ha rfl
    (by have := lineage_length_le hw hl; omega)
  refine ⟨above, hwalk, ?_, hmem⟩
  rw [List.map_append, List.map_singleton, hraws]
  exact hl

/-- The plan has one step for each name of the lineage. -/
theorem buildRestorePlan_length {archives : List VolumeArchive} (hw : WellFormed archives)
    (hnamed : ∀ b ∈ archives, b.parentTimestamp ≠ some "") {a : VolumeArchive}
    (ha : a ∈ archives) {l : List String} (hl : Lineage (parentForest archives) a.raw l) :
    ∃ plan, buildRestorePlan archives a.timestamp = .ok plan ∧
      plan.steps.length = l.length := by
  obtain ⟨above, hwalk, hlineage, hmem⟩ := parentWalk_lineage hw ha
  have hchain : ∀ b ∈ above ++ [a], b ∈ archives := by
    intro b hb
    rcases List.mem_append.mp hb with hb | hb
    · exact hmem b hb
    · exact List.mem_singleton.mp hb ▸ ha
  rcases mapM_restoreStepOf_cases (above ++ [a]) with
    ⟨⟨b, hb, hempty⟩, -⟩ | ⟨-, steps, hsteps, hrec, -⟩
  · exact absurd hempty (hnamed b (hchain b hb))
  · refine ⟨⟨steps⟩, ?_, ?_⟩
    · simp [buildRestorePlan, find?_timestamp hw.nodup ha, hwalk, hsteps, bind, Except.bind,
        pure, Except.pure]
    · have hlen := congrArg List.length hrec
      rw [List.length_map, List.length_map] at hlen
      rw [hl.unique hlineage, List.length_map, hlen]

/-- The unwrapped parent of the target itself. -/
theorem buildRestorePlan_panic {archives : List VolumeArchive} (hw : WellFormed archives)
    {a : VolumeArchive} (ha : a ∈ archives) (hempty : a.parentTimestamp = some "") :
    buildRestorePlan archives a.timestamp = .error .panic := by
  obtain ⟨above, hwalk, -, -⟩ := parentWalk_lineage hw ha
  rcases mapM_restoreStepOf_cases (above ++ [a]) with ⟨-, hpanic⟩ | ⟨hnamed, -⟩
  · simp [buildRestorePlan, find?_timestamp hw.nodup ha, hwalk, hpanic, bind, Except.bind]
  · exact absurd hempty (hnamed a (by simp))

/-! ## Moments -/

/-- The caches there are while one call runs: before it, in the call for the parent, and
when the entry has been inserted. -/
inductive DuringDepth (archiveMap : String → Option VolumeArchive) :
    ℕ → String → (String → Option ℕ) → (String → Option ℕ) → Prop
  | start {fuel : ℕ} {name : String} {cache : String → Option ℕ} :
      DuringDepth archiveMap fuel name cache cache
  | parent {fuel : ℕ} {name p : String} {cache moment : String → Option ℕ}
      {archive : VolumeArchive} (uncached : cache name = none)
      (found : archiveMap name = some archive) (recorded : archive.parentTimestamp = some p)
      (inner : DuringDepth archiveMap fuel p cache moment) :
      DuringDepth archiveMap (fuel + 1) name cache moment
  | finish {fuel : ℕ} {name : String} {cache : String → Option ℕ}
      {r : ℕ × (String → Option ℕ)} (returned : computeDepth archiveMap fuel name cache = .ok r) :
      DuringDepth archiveMap fuel name cache r.2

/-- The caches there are while the calls for some archives run. -/
inductive DuringCalls (archives : List VolumeArchive) :
    List VolumeArchive → (String → Option ℕ) → (String → Option ℕ) → Prop
  | idle {order : List VolumeArchive} {cache : String → Option ℕ} :
      DuringCalls archives order cache cache
  | call {a : VolumeArchive} {order : List VolumeArchive} {cache moment : String → Option ℕ}
      (inner : DuringDepth (archiveMapOf archives) archives.length a.raw cache moment) :
      DuringCalls archives (a :: order) cache moment
  | later {a : VolumeArchive} {order : List VolumeArchive} {cache moment : String → Option ℕ}
      {r : ℕ × (String → Option ℕ)}
      (returned : computeDepth (archiveMapOf archives) archives.length a.raw cache = .ok r)
      (rest : DuringCalls archives order r.2 moment) :
      DuringCalls archives (a :: order) cache moment

theorem DuringDepth.sound {archives : List VolumeArchive} (hw : WellFormed archives)
    {fuel : ℕ} {name : String} {cache moment : String → Option ℕ}
    (h : DuringDepth (archiveMapOf archives) fuel name cache moment) (hname : name ∈ raws archives)
    (hc : CacheSound (parentForest archives) cache) :
    CacheSound (parentForest archives) moment := by
  induction h with
  | start => exact hc
  | parent _ found recorded _ ih =>
    obtain ⟨ha, -⟩ := archiveMapOf_some found
    obtain ⟨-, hparent⟩ := hw.parent _ ha _ recorded
    exact ih (mem_raws.mpr hparent) hc
  | finish returned => exact (computeDepth_sound hw _ hname hc returned).1

theorem DuringCalls.sound {archives : List VolumeArchive} (hw : WellFormed archives)
    {order : List VolumeArchive} {cache moment : String → Option ℕ}
    (h : DuringCalls archives order cache moment) (hmem : ∀ a ∈ order, a ∈ archives)
    (hc : CacheSound (parentForest archives) cache) :
    CacheSound (parentForest archives) moment := by
  have hname : ∀ {a : VolumeArchive}, a ∈ archives → a.raw ∈ raws archives :=
    fun ha => mem_raws.mpr ⟨_, ha, rfl⟩
  induction h with
  | idle => exact hc
  | call inner => exact inner.sound hw (hname (hmem _ (by simp))) hc
  | later returned _ ih =>
    exact ih (fun b hb => hmem b (List.mem_cons_of_mem _ hb))
      (computeDepth_sound hw _ (hname (hmem _ (by simp))) hc returned).1

/-! ## Agreement -/

/-- The plan for the archive has one step more than the depth says. -/
def ChainLength (archives : List VolumeArchive) (a : VolumeArchive) (d : ℕ) : Prop :=
  ∃ plan, buildRestorePlan archives a.timestamp = .ok plan ∧ plan.steps.length = d + 1

/-- Every entry belongs to an archive and is its chain length. -/
def CacheRight (archives : List VolumeArchive) (cache : String → Option ℕ) : Prop :=
  ∀ name d, cache name = some d → ∃ a ∈ archives, a.raw = name ∧ ChainLength archives a d

/-- In whatever order the depths are computed, the cache ends up with the chain length of
every archive and is right all the time. -/
def DepthsAreChainLengths (archives : List VolumeArchive) : Prop :=
  ∀ order : List VolumeArchive, (∀ a, a ∈ order ↔ a ∈ archives) →
    (∃ cache, depthCalls archives order (fun _ => none) = .ok cache ∧
      ∀ a ∈ archives, ∃ d, cache a.raw = some d ∧ ChainLength archives a d) ∧
    ∀ moment, DuringCalls archives order (fun _ => none) moment → CacheRight archives moment

theorem CacheSound.right {archives : List VolumeArchive} (hw : WellFormed archives)
    (hnamed : ∀ b ∈ archives, b.parentTimestamp ≠ some "") {cache : String → Option ℕ}
    (h : CacheSound (parentForest archives) cache) : CacheRight archives cache := by
  intro name d hd
  obtain ⟨l, hl, hlen⟩ := h name d hd
  obtain ⟨a, ha, rfl⟩ := mem_raws.mp (parentForest_ne_none.mp hl.present)
  obtain ⟨plan, hplan, hsteps⟩ := buildRestorePlan_length hw hnamed ha hl
  exact ⟨a, ha, rfl, plan, hplan, hsteps.trans hlen⟩

/-- On well-formed metadata the depths are the chain lengths exactly when no archive records
the empty name as its parent. -/
theorem depthsAreChainLengths_iff (archives : List VolumeArchive) (hw : WellFormed archives) :
    DepthsAreChainLengths archives ↔ ∀ a ∈ archives, a.parentTimestamp ≠ some "" := by
  constructor
  · intro h a ha hempty
    obtain ⟨⟨cache, -, hall⟩, -⟩ := h archives fun _ => Iff.rfl
    obtain ⟨d, -, plan, hplan, -⟩ := hall a ha
    rw [buildRestorePlan_panic hw ha hempty] at hplan
    cases hplan
  · intro hnamed order horder
    have hstart : CacheSound (parentForest archives) (fun _ => none) := by simp [CacheSound]
    have hmem : ∀ a ∈ order, a ∈ archives := fun a ha => (horder a).mp ha
    have hacyclic : ∀ x, ¬ Relation.TransGen (LastParent archives) x x := fun x hx =>
      hw.acyclic x (hx.lift id fun _ _ => LastParent.parentOf)
    obtain ⟨cache, hcalls⟩ := depthCalls_isOk hacyclic order fun _ => none
    obtain ⟨hsound, -, hall⟩ := depthCalls_sound hw order hmem hstart hcalls
    refine ⟨⟨cache, hcalls, fun a ha => ?_⟩, fun moment hmoment => ?_⟩
    · obtain ⟨d, hd⟩ := Option.ne_none_iff_exists'.mp (hall a ((horder a).mpr ha))
      obtain ⟨b, hb, hraw, hlength⟩ := hsound.right hw hnamed a.raw d hd
      exact ⟨d, hd, eq_of_raw_eq hw.nodup hb ha hraw ▸ hlength⟩
    · exact (hmoment.sound hw hmem hstart).right hw hnamed

theorem emptyNameMeta_wellFormed : WellFormed emptyNameMeta.archives := by
  have hparents : ∀ a ∈ emptyNameMeta.archives, ∀ p ∈ a.parentTimestamp,
      p < a.raw ∧ ∃ b ∈ emptyNameMeta.archives, b.raw = p := by decide
  exact ⟨by decide, fun a ha p hp => hparents a ha p hp⟩

theorem depthsAreChainLengths_emptyName :
    WellFormed emptyNameMeta.archives ∧ ¬ DepthsAreChainLengths emptyNameMeta.archives ∧
      buildRestorePlan emptyNameMeta.archives (.plain "20230101") = .error .panic := by
  have hpanic : buildRestorePlan emptyNameMeta.archives (.plain "20230101") = .error .panic := by
    decide
  refine ⟨emptyNameMeta_wellFormed, fun h => ?_, hpanic⟩
  obtain ⟨⟨cache, -, hall⟩, -⟩ := h emptyNameMeta.archives fun _ => Iff.rfl
  obtain ⟨d, -, plan, hplan, -⟩ := hall ⟨.plain "20230101", some "", []⟩ (by decide)
  cases hpanic.symm.trans hplan

theorem depthsAreChainLengths_iff_chain :
    DepthsAreChainLengths chainMeta.archives ↔
      ∀ a ∈ chainMeta.archives, a.parentTimestamp ≠ some "" :=
  depthsAreChainLengths_iff _ chainMeta_coherent.toWellFormed

end Bbkar
