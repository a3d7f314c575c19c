import Bbkar.PlanLoop

/-!
# The parents of planned steps

Every step of a plan is looked at from the moment it is executed: the archives are those
of the destination and of the steps before it. The parent of an incremental step is the
greatest source snapshot below it that is archived then. The depth limit lets one fewer
incremental send be stacked on a full one than the documentation says.
-/
namespace Bbkar
open ParentForest

/-- On the destination, or sent by an earlier step. -/
def ArchivedBefore (dest : DestState) (before : List RunStep) (name : String) : Prop :=
  (∃ a ∈ dest.archives, a.raw = name) ∨ ∃ step ∈ before, step.snap.raw = name

instance (dest : DestState) (before : List RunStep) (name : String) :
    Decidable (ArchivedBefore dest before name) := by
  unfold ArchivedBefore
  infer_instance

/-- `p` is the greatest source snapshot strictly below `snap` among the archived ones. -/
structure BestParent (src : SourceState) (names : String → Prop)
    (snap p : Timestamp) : Prop where
  mem : p ∈ src.snapshots
  below : p < snap
  archived : names p.raw
  greatest : ∀ q ∈ src.snapshots, q < snap → names q.raw → q ≤ p

theorem BestParent.unique {src : SourceState} {names : String → Prop} {snap p q : Timestamp}
    (hp : BestParent src names snap p) (hq : BestParent src names snap q) : p = q :=
  le_antisymm (hq.greatest p hp.mem hp.below hp.archived)
    (hp.greatest q hq.mem hq.below hq.archived)

theorem findParentCandidate_eq_some {src : SourceState} {snap p : Timestamp}
    {destSet : Finset String} :
    findParentCandidate snap destSet (srcNamesOf src) src = some p ↔
      BestParent src (· ∈ destSet) snap p := by
  constructor
  · intro h
    obtain ⟨hmem, hlt, hin, hmax⟩ := findParentCandidate_some h
    exact ⟨hmem, hlt, hin, hmax⟩
  · intro hp
    cases h : findParentCandidate snap destSet (srcNamesOf src) src with
    | none => exact absurd hp.archived (findParentCandidate_none h p hp.mem hp.below)
    | some q =>
      obtain ⟨hmem, hlt, hin, hmax⟩ := findParentCandidate_some h
      have hq : BestParent src (· ∈ destSet) snap q := ⟨hmem, hlt, hin, hmax⟩
      rw [hq.unique hp]

/-- When a step is decided the set holds what is archived by the time it is executed. -/
theorem Planned.archivedBefore {policy : SendPolicy} {src : SourceState} {dest : DestState}
    {st stk : PlanState} {pre : List Timestamp} {before : List RunStep}
    (h : Planned policy src st pre before stk) (hi : initialPlanState dest.archives = .ok st) :
    (· ∈ stk.destSet) = ArchivedBefore dest before := by
  funext name
  rw [h.mem_destSet, (initialPlanState_ok hi).1, List.mem_toFinset, mem_raws]
  rfl

/-- An incremental step goes on top of the best parent, and a step without a parent is a
full one. -/
theorem buildPlan_bestParent {src : SourceState} {dest : DestState} {policy : SendPolicy}
    {plan : RunPlan} (h : buildPlan src dest policy = .ok plan) {before after : List RunStep}
    {step : RunStep} (hplan : plan.steps = before ++ step :: after) :
    (∀ s p, step = .sendIncremental s p → BestParent src (ArchivedBefore dest before) s p) ∧
      ((∀ q ∈ src.snapshots, q < step.snap → ¬ ArchivedBefore dest before q.raw) →
        step = .sendFull step.snap) := by
  obtain ⟨st, st', hi, hp⟩ := buildPlan_planned h
  rw [hplan] at hp
  obtain ⟨pre, rest, stk, -, hpre, hwhy⟩ := hp.at_step
  have harchived := hpre.archivedBefore hi
  have hbest : ∀ s p, step = .sendIncremental s p →
      BestParent src (ArchivedBefore dest before) s p := by
    rintro s p rfl
    rw [← harchived]
    exact findParentCandidate_eq_some.mp (AllowsIncremental.candidate hwhy)
  refine ⟨hbest, fun hnone => ?_⟩
  cases step with
  | sendFull s => rfl
  | sendIncremental s p =>
    have hp := hbest s p rfl
    exact absurd hp.archived (hnone p hp.mem hp.below)

/-- A gap on the destination: the second snapshot is not archived but the third one is. -/
def gapMeta : DestMeta :=
  DestMeta.new 0 0 [⟨.plain "20230101", none, []⟩, ⟨.plain "20230103", none, []⟩]

def gapSource : SourceState :=
  ⟨Series.new "root" [.plain "20230101", .plain "20230102", .plain "20230104"]⟩

theorem buildPlan_bestParent_gap :
    ∃ plan, buildPlan gapSource ⟨some gapMeta⟩ ⟨⟨365⟩, none⟩ = .ok plan ∧
      plan.steps = [.sendIncremental (.plain "20230102") (.plain "20230101")] ++
        .sendIncremental (.plain "20230104") (.plain "20230102") :: [] ∧
      BestParent gapSource
        (ArchivedBefore ⟨some gapMeta⟩
          [.sendIncremental (.plain "20230102") (.plain "20230101")])
        (.plain "20230104") (.plain "20230102") := by
  have h : buildPlan gapSource ⟨some gapMeta⟩ ⟨⟨365⟩, none⟩ =
      .ok ⟨[.sendIncremental (.plain "20230102") (.plain "20230101")] ++
        .sendIncremental (.plain "20230104") (.plain "20230102") :: []⟩ := by decide
  exact ⟨_, h, rfl, (buildPlan_bestParent h rfl).1 _ _ rfl⟩

/-! ## The depth limit -/

/-- The archives at the time a step is executed, without their chunks. -/
def archivesBefore (dest : DestState) (before : List RunStep) : List VolumeArchive :=
  before.reverse.map (fun step => step.archive []) ++ dest.archives

/-- The last full send at that time: the last one planned, or else the most recent full
archive of the destination. -/
def lastFullBefore (dest : DestState) (before : List RunStep) : Option Timestamp :=
  before.foldl (fun last step => if step.parentRaw = none then some step.snap else last)
    (lastFullOf dest.archives)

theorem Planned.lastFull_eq {policy : SendPolicy} {src : SourceState} {st st' : PlanState}
    {snaps : List Timestamp} {steps : List RunStep}
    (h : Planned policy src st snaps steps st') :
    st'.lastFull = steps.foldl
      (fun last step => if step.parentRaw = none then some step.snap else last) st.lastFull := by
  induction h with
  | nil => rfl
  | skip _ _ ih => exact ih
  | full _ _ _ ih => simpa [PlanState.full] using ih
  | incremental _ _ _ ih => simpa [PlanState.incremental] using ih

/-- The loop variables follow the archives of the steps planned so far. -/
theorem Planned.tracks {policy : SendPolicy} {src : SourceState} (hsrc : src.Parsed)
    {archives : List VolumeArchive} {st st' : PlanState} {snaps : List Timestamp}
    {steps : List RunStep} (h : Planned policy src st snaps steps st')
    (hmem : ∀ s ∈ snaps, s ∈ src.snapshots) (ht : Tracks archives st) :
    Tracks (steps.reverse.map (fun step => step.archive []) ++ archives) st' := by
  induction h generalizing archives with
  | nil => exact ht
  | skip _ _ ih => exact ih (fun s hs => hmem s (List.mem_cons_of_mem _ hs)) ht
  | full hin _ _ ih =>
    simpa using ih (fun s hs => hmem s (List.mem_cons_of_mem _ hs)) (ht.full hin [])
  | @incremental st snap p _ _ _ hin why _ ih =>
    obtain ⟨hp, hlt, hpd, -⟩ := findParentCandidate_some why.candidate
    have hraw : p.raw < snap.raw :=
      ((hsrc p hp).lt_iff (hsrc snap (hmem snap (by simp)))).mp hlt
    simpa using ih (fun s hs => hmem s (List.mem_cons_of_mem _ hs))
      (ht.incremental hin hpd hraw [])

theorem Tracks.depthOf_eq {archives : List VolumeArchive} {st : PlanState}
    (h : Tracks archives st) {name full : String} {incs : List String}
    (hl : Lineage (parentForest archives) name (full :: incs)) :
    st.depthOf name = incs.length := by
  have hget := (h.depths name incs.length).mpr ⟨_, hl, rfl⟩
  rw [PlanState.depthOf, hget, Option.getD_some]

/-- With fewer than `max` incremental archives between the best parent and its full one,
and no full send asked for by the interval, the step is incremental. -/
def StaysIncremental (max : ℕ) (src : SourceState) (dest : DestState) (policy : SendPolicy)
    (before : List RunStep) (step : RunStep) : Prop :=
  ∀ p full incs, BestParent src (ArchivedBefore dest before) step.snap p →
    Lineage (parentForest (archivesBefore dest before)) p.raw (full :: incs) →
    incs.length < max →
    checkIntervalExceeded (lastFullBefore dest before) step.snap
      policy.minFullSendInterval = .ok false →
    step = .sendIncremental step.snap p

/-- A full send is forced early exactly when one more incremental send would use up the
limit: only `max - 1` of them are stacked on a full one. -/
theorem staysIncremental_iff {src : SourceState} (hsrc : src.Parsed) {dest : DestState}
    (hdest : WellFormed dest.archives) {policy : SendPolicy} {max : ℕ}
    (hmax : policy.maxIncrementalDepth = some max) {plan : RunPlan}
    (h : buildPlan src dest policy = .ok plan) {before after : List RunStep} {step : RunStep}
    (hplan : plan.steps = before ++ step :: after) :
    StaysIncremental max src dest policy before step ↔
      ∀ p full incs, BestParent src (ArchivedBefore dest before) step.snap p →
        Lineage (parentForest (archivesBefore dest before)) p.raw (full :: incs) →
        checkIntervalExceeded (lastFullBefore dest before) step.snap
          policy.minFullSendInterval = .ok false →
        incs.length + 1 ≠ max := by
  obtain ⟨st, st', hi, hp⟩ := buildPlan_planned h
  rw [hplan] at hp
  obtain ⟨pre, rest, stk, hsnaps, hpre, hwhy⟩ := hp.at_step
  have htracks : Tracks (archivesBefore dest before) stk :=
    hpre.tracks hsrc (fun s hs => by simp [hsnaps, hs]) (initialPlanState_tracks hdest hi)
  have hlast : stk.lastFull = lastFullBefore dest before := by
    rw [hpre.lastFull_eq, (initialPlanState_ok hi).2.2.1, lastFullBefore]
  have harchived := hpre.archivedBefore hi
  have hexceed : ∀ {p full incs},
      Lineage (parentForest (archivesBefore dest before)) p (full :: incs) →
      wouldExceedDepth policy (stk.depthOf p) = decide (incs.length + 1 ≥ max) := by
    intro p full incs hl
    rw [wouldExceedDepth, hmax, htracks.depthOf_eq hl]
  constructor
  · intro hstays p full incs hbest hl hinterval heq
    have hstep := hstays p full incs hbest hl (by omega) hinterval
    rw [hstep] at hwhy
    have hdepth := AllowsIncremental.depth hwhy
    rw [hexceed hl] at hdepth
    simp [heq] at hdepth
  · intro hne p full incs hbest hl hlt hinterval
    rw [← harchived] at hbest
    have hcandidate := findParentCandidate_eq_some.mpr hbest
    cases step with
    | sendFull s =>
      -- neither the parent nor the interval nor the depth asks for this full send
      rcases hwhy with hnone | ⟨q, b, hq, hb, hforced⟩
      · exact absurd (hcandidate.symm.trans hnone) (by simp)
      · obtain rfl : p = q := Option.some.inj (hcandidate.symm.trans hq)
        rw [hlast] at hb
        obtain rfl := Except.ok.inj (hb.symm.trans hinterval)
        rw [hexceed hl, Bool.or_false, decide_eq_true_eq] at hforced
        exact absurd (by omega) (hne p full incs (harchived ▸ hbest) hl hinterval)
    | sendIncremental s q =>
      have hq := AllowsIncremental.candidate hwhy
      obtain rfl : p = q := Option.some.inj (hcandidate.symm.trans hq)
      rfl

def shortChainSource : SourceState :=
  ⟨Series.new "root"
    [.plain "20230101", .plain "20230102", .plain "20230103", .plain "20230104"]⟩

def shortChainMeta : DestMeta := DestMeta.new 0 0 [⟨.plain "20230101", none, []⟩]

/-- With a limit of two the second send is full, on one incremental archive only. -/
theorem staysIncremental_limit_two :
    shortChainSource.Parsed ∧ WellFormed shortChainMeta.archives ∧
    buildPlan shortChainSource ⟨some shortChainMeta⟩ ⟨⟨365⟩, some 2⟩ =
      .ok ⟨[.sendIncremental (.plain "20230102") (.plain "20230101"),
        .sendFull (.plain "20230103"),
        .sendIncremental (.plain "20230104") (.plain "20230103")]⟩ ∧
    ¬ StaysIncremental 2 shortChainSource ⟨some shortChainMeta⟩ ⟨⟨365⟩, some 2⟩
      [.sendIncremental (.plain "20230102") (.plain "20230101")]
      (.sendFull (.plain "20230103")) := by
  refine ⟨by decide, .of_full (by decide) (by decide), by decide, fun hstays => ?_⟩
  have hroot : parentForest (archivesBefore ⟨some shortChainMeta⟩
      [.sendIncremental (.plain "20230102") (.plain "20230101")]) "20230101" = some none := by
    decide
  have hchild : parentForest (archivesBefore ⟨some shortChainMeta⟩
      [.sendIncremental (.plain "20230102") (.plain "20230101")]) "20230102" =
        some (some "20230101") := by decide
  have hbest : BestParent shortChainSource (ArchivedBefore ⟨some shortChainMeta⟩
      [.sendIncremental (.plain "20230102") (.plain "20230101")])
      (.plain "20230103") (.plain "20230102") :=
    ⟨by decide, by decide, by decide, by decide⟩
  have hstep := hstays _ _ _ hbest (.child hchild (.root hroot)) (by decide) (by decide)
  cases hstep

theorem staysIncremental_iff_limit_two :
    (buildPlan shortChainSource ⟨some shortChainMeta⟩ ⟨⟨365⟩, some 2⟩ =
      .ok ⟨[] ++ .sendIncremental (.plain "20230102") (.plain "20230101") ::
        [.sendFull (.plain "20230103"),
          .sendIncremental (.plain "20230104") (.plain "20230103")]⟩) ∧
    (StaysIncremental 2 shortChainSource ⟨some shortChainMeta⟩ ⟨⟨365⟩, some 2⟩ []
        (.sendIncremental (.plain "20230102") (.plain "20230101")) ↔
      ∀ p full incs, BestParent shortChainSource (ArchivedBefore ⟨some shortChainMeta⟩ [])
        (.plain "20230102") p →
        Lineage (parentForest (archivesBefore ⟨some shortChainMeta⟩ [])) p.raw
          (full :: incs) →
        checkIntervalExceeded (lastFullBefore ⟨some shortChainMeta⟩ []) (.plain "20230102")
          ⟨365⟩ = .ok false →
        incs.length + 1 ≠ 2) := by
  have h : buildPlan shortChainSource ⟨some shortChainMeta⟩ ⟨⟨365⟩, some 2⟩ =
      .ok ⟨[] ++ .sendIncremental (.plain "20230102") (.plain "20230101") ::
        [.sendFull (.plain "20230103"),
          .sendIncremental (.plain "20230104") (.plain "20230103")]⟩ := by decide
  exact ⟨h, staysIncremental_iff (by decide)
    (.of_full (by decide) (by decide)) rfl h rfl⟩

end Bbkar
