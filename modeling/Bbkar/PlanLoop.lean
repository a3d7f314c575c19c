import Bbkar.DepthCache

/-!
# What the planning loop does

`Planned` says once which branches one iteration can take and under which conditions.
Every property of plans is an induction over it. The loop variables stay in step with the
archive list that executing the planned steps would give.
-/
namespace Bbkar
open ParentForest Relation Function KeySort

/-! ## Parent candidates -/

theorem mem_srcNamesOf {src : SourceState} {name : String} :
    name ∈ srcNamesOf src ↔ ∃ s ∈ src.snapshots, s.raw = name := by
  simp [srcNamesOf]

/-- The candidate is the greatest source snapshot below that is archived or planned. -/
theorem findParentCandidate_some {src : SourceState} {snap p : Timestamp}
    {destSet : Finset String}
    (h : findParentCandidate snap destSet (srcNamesOf src) src = some p) :
    p ∈ src.snapshots ∧ p < snap ∧ p.raw ∈ destSet ∧
      ∀ q ∈ src.snapshots, q < snap → q.raw ∈ destSet → q ≤ p := by
  rw [findParentCandidate, List.filter_reverse] at h
  have hsorted : (src.snapshots.filter (fun s => decide (s < snap))).Pairwise
      (fun a b => id a ≤ id b) := src.volume.sorted.filter _
  obtain ⟨hmem, hp, hmax⟩ := find?_reverse_greatest id _ _ _ hsorted h
  simp only [List.mem_filter, decide_eq_true_eq] at hmem hp
  refine ⟨hmem.1, hmem.2, hp.1, ?_⟩
  intro q hq hlt hqd
  refine hmax q ?_ ?_
  · simpa using ⟨hq, hlt⟩
  · simpa using ⟨hqd, mem_srcNamesOf.mpr ⟨q, hq, rfl⟩⟩

theorem findParentCandidate_none {src : SourceState} {snap : Timestamp}
    {destSet : Finset String}
    (h : findParentCandidate snap destSet (srcNamesOf src) src = none) :
    ∀ q ∈ src.snapshots, q < snap → q.raw ∉ destSet := by
  intro q hq hlt hqd
  have hn := List.find?_eq_none.mp h q (by simpa using ⟨hq, hlt⟩)
  exact hn (by simpa using ⟨hqd, mem_srcNamesOf.mpr ⟨q, hq, rfl⟩⟩)

/-! ## The depths after one step -/

section Depths

variable {st : PlanState} {snap p : Timestamp} {name : String}

@[simp] theorem PlanState.depthOf_full : (st.full snap).depthOf snap.raw = 0 := by
  simp [PlanState.depthOf, PlanState.full]

@[simp] theorem PlanState.depthOf_incremental :
    (st.incremental snap p).depthOf snap.raw = st.depthOf p.raw + 1 := by
  simp [PlanState.depthOf, PlanState.incremental]

theorem PlanState.depthOf_full_of_ne (h : name ≠ snap.raw) :
    (st.full snap).depthOf name = st.depthOf name := by
  simp [PlanState.depthOf, PlanState.full, h]

theorem PlanState.depthOf_incremental_of_ne (h : name ≠ snap.raw) :
    (st.incremental snap p).depthOf name = st.depthOf name := by
  simp [PlanState.depthOf, PlanState.incremental, h]

end Depths

/-- What both ways of sending a snapshot do to the loop variables. -/
structure PlanState.Sends (st : PlanState) (snap : Timestamp) (st' : PlanState) : Prop where
  destSet : st'.destSet = insert snap.raw st.destSet
  depths : ∀ name, name ≠ snap.raw → st'.depthOf name = st.depthOf name
  lastFull : st'.lastFull = st.lastFull ∨ st'.lastFull = some snap

theorem PlanState.sends_full (st : PlanState) (snap : Timestamp) :
    st.Sends snap (st.full snap) :=
  ⟨rfl, fun _ hne => depthOf_full_of_ne hne, Or.inr rfl⟩

theorem PlanState.sends_incremental (st : PlanState) (snap p : Timestamp) :
    st.Sends snap (st.incremental snap p) :=
  ⟨rfl, fun _ hne => depthOf_incremental_of_ne hne, Or.inl rfl⟩

/-! ## The branches of one iteration -/

/-- Why a snapshot is sent in full. -/
def ForcedFull (policy : SendPolicy) (src : SourceState) (st : PlanState)
    (snap : Timestamp) : Prop :=
  findParentCandidate snap st.destSet (srcNamesOf src) src = none ∨
    ∃ p b, findParentCandidate snap st.destSet (srcNamesOf src) src = some p ∧
      checkIntervalExceeded st.lastFull snap policy.minFullSendInterval = .ok b ∧
      (wouldExceedDepth policy (st.depthOf p.raw) || b) = true

/-- Why a snapshot is sent on top of `p`. -/
structure AllowsIncremental (policy : SendPolicy) (src : SourceState) (st : PlanState)
    (snap p : Timestamp) : Prop where
  candidate : findParentCandidate snap st.destSet (srcNamesOf src) src = some p
  interval : checkIntervalExceeded st.lastFull snap policy.minFullSendInterval = .ok false
  depth : wouldExceedDepth policy (st.depthOf p.raw) = false

/-- The loop goes over `snaps` from one state to another and plans the given steps. -/
inductive Planned (policy : SendPolicy) (src : SourceState) :
    PlanState → List Timestamp → List RunStep → PlanState → Prop
  | nil {st} : Planned policy src st [] [] st
  | skip {st snap snaps steps st'} (h : snap.raw ∈ st.destSet)
      (rest : Planned policy src st snaps steps st') :
      Planned policy src st (snap :: snaps) steps st'
  | full {st snap snaps steps st'} (h : snap.raw ∉ st.destSet)
      (why : ForcedFull policy src st snap)
      (rest : Planned policy src (st.full snap) snaps steps st') :
      Planned policy src st (snap :: snaps) (.sendFull snap :: steps) st'
  | incremental {st snap p snaps steps st'} (h : snap.raw ∉ st.destSet)
      (why : AllowsIncremental policy src st snap p)
      (rest : Planned policy src (st.incremental snap p) snaps steps st') :
      Planned policy src st (snap :: snaps) (.sendIncremental snap p :: steps) st'

/-- The branch that planned a step. -/
def DecidedBy (policy : SendPolicy) (src : SourceState) (st : PlanState) : RunStep → Prop
  | .sendFull snap => ForcedFull policy src st snap
  | .sendIncremental snap p => AllowsIncremental policy src st snap p

theorem planSnapshot_cases {policy : SendPolicy} {src : SourceState} {st st' : PlanState}
    {snap : Timestamp} (h : planSnapshot policy src (srcNamesOf src) st snap = .ok st') :
    (snap.raw ∈ st.destSet ∧ st' = st) ∨
    (snap.raw ∉ st.destSet ∧ ForcedFull policy src st snap ∧ st' = st.full snap) ∨
    (snap.raw ∉ st.destSet ∧ ∃ p, AllowsIncremental policy src st snap p ∧
      st' = st.incremental snap p) := by
  unfold planSnapshot at h
  by_cases hin : snap.raw ∈ st.destSet
  · simp only [if_pos hin, Except.ok.injEq] at h
    exact Or.inl ⟨hin, h.symm⟩
  rw [if_neg hin] at h
  refine Or.inr ?_
  cases hp : findParentCandidate snap st.destSet (srcNamesOf src) src with
  | none =>
    simp only [hp, Except.ok.injEq] at h
    exact Or.inl ⟨hin, Or.inl hp, h.symm⟩
  | some p =>
    cases hc : checkIntervalExceeded st.lastFull snap policy.minFullSendInterval with
    | error e => simp [hp, hc] at h
    | ok b =>
      simp only [hp, hc] at h
      split_ifs at h with hf
      · exact Or.inl ⟨hin, Or.inr ⟨p, b, hp, hc, hf⟩, (Except.ok.inj h).symm⟩
      · simp only [Bool.or_eq_true, not_or, Bool.not_eq_true] at hf
        refine Or.inr ⟨hin, p, ⟨hp, ?_, hf.1⟩, (Except.ok.inj h).symm⟩
        rw [hc, hf.2]

/-- With a candidate, both inputs of the decision in one value. -/
def decideFull (policy : SendPolicy) (st : PlanState) (lastFull : Option Timestamp)
    (snap p : Timestamp) : BR Bool :=
  (checkIntervalExceeded lastFull snap policy.minFullSendInterval).map
    (wouldExceedDepth policy (st.depthOf p.raw) || ·)

theorem planSnapshot_skip {policy : SendPolicy} {src : SourceState} {st : PlanState}
    {snap : Timestamp} (h : snap.raw ∈ st.destSet) :
    planSnapshot policy src (srcNamesOf src) st snap = .ok st := by
  rw [planSnapshot, if_pos h]

theorem planSnapshot_no_parent {policy : SendPolicy} {src : SourceState} {st : PlanState}
    {snap : Timestamp} (h : snap.raw ∉ st.destSet)
    (hp : findParentCandidate snap st.destSet (srcNamesOf src) src = none) :
    planSnapshot policy src (srcNamesOf src) st snap = .ok (st.full snap) := by
  rw [planSnapshot, if_neg h, hp]

theorem planSnapshot_candidate {policy : SendPolicy} {src : SourceState} {st : PlanState}
    {snap p : Timestamp} (h : snap.raw ∉ st.destSet)
    (hp : findParentCandidate snap st.destSet (srcNamesOf src) src = some p) :
    planSnapshot policy src (srcNamesOf src) st snap =
      (decideFull policy st st.lastFull snap p).map
        (fun full => if full = true then st.full snap else st.incremental snap p) := by
  rw [planSnapshot, if_neg h, hp, decideFull]
  cases checkIntervalExceeded st.lastFull snap policy.minFullSendInterval with
  | error e => rfl
  | ok b =>
    simp only [Except.map]
    split_ifs <;> rfl

theorem ForcedFull.eq {policy : SendPolicy} {src : SourceState} {st : PlanState}
    {snap : Timestamp} (h : ForcedFull policy src st snap) :
    findParentCandidate snap st.destSet (srcNamesOf src) src = none ∨
      ∃ p, findParentCandidate snap st.destSet (srcNamesOf src) src = some p ∧
        decideFull policy st st.lastFull snap p = .ok true := by
  rcases h with h | ⟨p, b, hp, hc, hb⟩
  · exact Or.inl h
  · exact Or.inr ⟨p, hp, by simp [decideFull, hc, Except.map, hb]⟩

theorem AllowsIncremental.eq {policy : SendPolicy} {src : SourceState} {st : PlanState}
    {snap p : Timestamp} (h : AllowsIncremental policy src st snap p) :
    decideFull policy st st.lastFull snap p = .ok false := by
  simp [decideFull, h.interval, h.depth, Except.map]

@[simp] theorem planLoop_nil (policy : SendPolicy) (src : SourceState) (st : PlanState) :
    planLoop policy src [] st = .ok st := rfl

theorem planLoop_cons (policy : SendPolicy) (src : SourceState) (st : PlanState)
    (snap : Timestamp) (snaps : List Timestamp) :
    planLoop policy src (snap :: snaps) st =
      (planSnapshot policy src (srcNamesOf src) st snap).bind (planLoop policy src snaps) := by
  simp only [planLoop, List.foldlM_cons]
  rfl

theorem planLoop_append (policy : SendPolicy) (src : SourceState) (st : PlanState)
    (pre rest : List Timestamp) :
    planLoop policy src (pre ++ rest) st =
      (planLoop policy src pre st).bind (planLoop policy src rest) := by
  simp only [planLoop, List.foldlM_append]
  rfl

/-- Snapshots that are archived or planned leave the loop variables alone. -/
theorem planLoop_skip {policy : SendPolicy} {src : SourceState} {st : PlanState}
    {snaps : List Timestamp} (h : ∀ s ∈ snaps, s.raw ∈ st.destSet) :
    planLoop policy src snaps st = .ok st := by
  induction snaps with
  | nil => rfl
  | cons snap snaps ih =>
    rw [planLoop_cons, planSnapshot_skip (h snap (by simp))]
    exact ih (fun s hs => h s (List.mem_cons_of_mem _ hs))

/-- A loop that returns has planned its steps branch by branch. -/
theorem planLoop_planned {policy : SendPolicy} {src : SourceState} {snaps : List Timestamp}
    {st st' : PlanState} (h : planLoop policy src snaps st = .ok st') :
    ∃ steps, st'.steps = st.steps ++ steps ∧ Planned policy src st snaps steps st' := by
  induction snaps generalizing st with
  | nil =>
    obtain rfl : st = st' := by simpa using h
    exact ⟨[], by simp, .nil⟩
  | cons snap snaps ih =>
    rw [planLoop_cons] at h
    cases hs : planSnapshot policy src (srcNamesOf src) st snap with
    | error e => simp [hs, Except.bind] at h
    | ok st₁ =>
      simp only [hs, Except.bind] at h
      obtain ⟨steps, hsteps, hp⟩ := ih h
      rcases planSnapshot_cases hs with ⟨hin, rfl⟩ | ⟨hin, hwhy, rfl⟩ | ⟨hin, p, hwhy, rfl⟩
      · exact ⟨steps, hsteps, .skip hin hp⟩
      · exact ⟨.sendFull snap :: steps, by simp [hsteps, PlanState.full], .full hin hwhy hp⟩
      · exact ⟨.sendIncremental snap p :: steps, by simp [hsteps, PlanState.incremental],
          .incremental hin hwhy hp⟩

namespace Planned

variable {policy : SendPolicy} {src : SourceState} {st st' : PlanState}
  {snaps : List Timestamp} {steps : List RunStep}

/-- Conversely the loop reaches the final state of a planned run. -/
theorem planLoop_eq (h : Planned policy src st snaps steps st') :
    planLoop policy src snaps st = .ok st' := by
  induction h with
  | nil => rfl
  | skip hin _ ih => rw [planLoop_cons, planSnapshot_skip hin]; exact ih
  | @full st snap _ _ _ hin why _ ih =>
    have hs : planSnapshot policy src (srcNamesOf src) st snap = .ok (st.full snap) := by
      rcases why.eq with hp | ⟨p, hp, hd⟩
      · exact planSnapshot_no_parent hin hp
      · rw [planSnapshot_candidate hin hp, hd]
        rfl
    rw [planLoop_cons, hs]
    exact ih
  | @incremental st snap p _ _ _ hin why _ ih =>
    have hs : planSnapshot policy src (srcNamesOf src) st snap =
        .ok (st.incremental snap p) := by
      rw [planSnapshot_candidate hin why.candidate, why.eq]
      rfl
    rw [planLoop_cons, hs]
    exact ih

theorem steps_eq (h : Planned policy src st snaps steps st') :
    st'.steps = st.steps ++ steps := by
  induction h with
  | nil => simp
  | skip _ _ ih => exact ih
  | full _ _ _ ih => simp [ih, PlanState.full]
  | incremental _ _ _ ih => simp [ih, PlanState.incremental]

theorem destSet_mono (h : Planned policy src st snaps steps st') :
    st.destSet ⊆ st'.destSet := by
  induction h with
  | nil => exact subset_rfl
  | skip _ _ ih => exact ih
  | full _ _ _ ih => exact (Finset.subset_insert _ _).trans ih
  | incremental _ _ _ ih => exact (Finset.subset_insert _ _).trans ih

/-- The last full send is the one before the loop or a snapshot planned in full. -/
theorem lastFull_cases (h : Planned policy src st snaps steps st') :
    st'.lastFull = st.lastFull ∨
      ∃ s ∈ snaps, s.raw ∉ st.destSet ∧ .sendFull s ∈ steps ∧ st'.lastFull = some s := by
  induction h with
  | nil => exact Or.inl rfl
  | skip _ _ ih =>
    rcases ih with ih | ⟨s, hs, hn, hm, hl⟩
    · exact Or.inl ih
    · exact Or.inr ⟨s, List.mem_cons_of_mem _ hs, hn, hm, hl⟩
  | @full st snap _ _ _ hin _ _ ih =>
    rcases ih with ih | ⟨s, hs, hn, hm, hl⟩
    · exact Or.inr ⟨snap, by simp, hin, by simp, ih⟩
    · exact Or.inr ⟨s, List.mem_cons_of_mem _ hs, fun hc => hn (Finset.mem_insert_of_mem hc),
        List.mem_cons_of_mem _ hm, hl⟩
  | incremental _ _ _ ih =>
    rcases ih with ih | ⟨s, hs, hn, hm, hl⟩
    · exact Or.inl ih
    · exact Or.inr ⟨s, List.mem_cons_of_mem _ hs, fun hc => hn (Finset.mem_insert_of_mem hc),
        List.mem_cons_of_mem _ hm, hl⟩

/-- Every snapshot the loop went over is archived or planned. -/
theorem covers (h : Planned policy src st snaps steps st') :
    ∀ s ∈ snaps, s.raw ∈ st'.destSet := by
  induction h with
  | nil => simp
  | @skip _ snap _ _ _ hin hp ih =>
    intro s hs
    rcases List.mem_cons.mp hs with rfl | hs
    · exact hp.destSet_mono hin
    · exact ih s hs
  | full _ _ hp ih =>
    intro s hs
    rcases List.mem_cons.mp hs with rfl | hs
    · exact hp.destSet_mono (Finset.mem_insert_self _ _)
    · exact ih s hs
  | incremental _ _ hp ih =>
    intro s hs
    rcases List.mem_cons.mp hs with rfl | hs
    · exact hp.destSet_mono (Finset.mem_insert_self _ _)
    · exact ih s hs

/-- The loop variables at the moment a step was decided. -/
theorem at_step {before after : List RunStep} {step : RunStep}
    (h : Planned policy src st snaps (before ++ step :: after) st') :
    ∃ pre rest stk, snaps = pre ++ step.snap :: rest ∧
      Planned policy src st pre before stk ∧ DecidedBy policy src stk step := by
  generalize hsteps : before ++ step :: after = steps at h
  induction h generalizing before with
  | nil => simp at hsteps
  | skip hin _ ih =>
    obtain ⟨pre, rest, stk, rfl, hpre, hwhy⟩ := ih hsteps
    exact ⟨_ :: pre, rest, stk, rfl, .skip hin hpre, hwhy⟩
  | full hin why _ ih =>
    cases before with
    | nil =>
      obtain ⟨rfl, -⟩ := List.cons.inj hsteps
      exact ⟨[], _, _, rfl, .nil, why⟩
    | cons step before =>
      obtain ⟨rfl, htail⟩ := List.cons.inj hsteps
      obtain ⟨pre, rest, stk, rfl, hpre, hwhy⟩ := ih htail
      exact ⟨_ :: pre, rest, stk, rfl, .full hin why hpre, hwhy⟩
  | incremental hin why _ ih =>
    cases before with
    | nil =>
      obtain ⟨rfl, -⟩ := List.cons.inj hsteps
      exact ⟨[], _, _, rfl, .nil, why⟩
    | cons step before =>
      obtain ⟨rfl, htail⟩ := List.cons.inj hsteps
      obtain ⟨pre, rest, stk, rfl, hpre, hwhy⟩ := ih htail
      exact ⟨_ :: pre, rest, stk, rfl, .incremental hin why hpre, hwhy⟩

/-- The set grows by the snapshots of the planned steps. -/
theorem mem_destSet (h : Planned policy src st snaps steps st') {name : String} :
    name ∈ st'.destSet ↔ name ∈ st.destSet ∨ ∃ step ∈ steps, step.snap.raw = name := by
  induction h with
  | nil => simp
  | skip _ _ ih => exact ih
  | full _ _ _ ih =>
    rw [ih]
    simp [PlanState.full, or_assoc, or_left_comm, eq_comm]
  | incremental _ _ _ ih =>
    rw [ih]
    simp [PlanState.incremental, or_assoc, or_left_comm, eq_comm]

/-- A planned run can be cut after any number of steps. -/
theorem cut (h : Planned policy src st snaps steps st') (k : ℕ) :
    ∃ pre rest stk, snaps = pre ++ rest ∧ Planned policy src st pre (steps.take k) stk ∧
      Planned policy src stk rest (steps.drop k) st' := by
  induction h generalizing k with
  | @nil st => exact ⟨[], [], st, by simp, by simpa using .nil, by simpa using .nil⟩
  | @skip st snap snaps steps st' hin _ ih =>
    obtain ⟨pre, rest, stk, rfl, hpre, hrest⟩ := ih k
    exact ⟨snap :: pre, rest, stk, rfl, .skip hin hpre, hrest⟩
  | @full st snap snaps steps st' hin why hp ih =>
    cases k with
    | zero => exact ⟨[], _, st, rfl, .nil, .full hin why hp⟩
    | succ k =>
      obtain ⟨pre, rest, stk, rfl, hpre, hrest⟩ := ih k
      exact ⟨snap :: pre, rest, stk, rfl, .full hin why hpre, hrest⟩
  | @incremental st snap p snaps steps st' hin why hp ih =>
    cases k with
    | zero => exact ⟨[], _, st, rfl, .nil, .incremental hin why hp⟩
    | succ k =>
      obtain ⟨pre, rest, stk, rfl, hpre, hrest⟩ := ih k
      exact ⟨snap :: pre, rest, stk, rfl, .incremental hin why hpre, hrest⟩

end Planned

theorem buildPlan_eq_ok {src : SourceState} {dest : DestState} {policy : SendPolicy}
    {plan : RunPlan} :
    buildPlan src dest policy = .ok plan ↔
      ∃ st st', initialPlanState dest.archives = .ok st ∧
        planLoop policy src src.snapshots st = .ok st' ∧ plan = ⟨st'.steps⟩ := by
  unfold buildPlan
  cases hi : initialPlanState dest.archives with
  | error e => simp [bind, Except.bind]
  | ok st =>
    cases hl : planLoop policy src src.snapshots st with
    | error e => simp [hl, bind, Except.bind]
    | ok st' => simp [hl, bind, Except.bind, pure, Except.pure, eq_comm]

theorem initialPlanState_ok {archives : List VolumeArchive} {st : PlanState}
    (h : initialPlanState archives = .ok st) :
    st.destSet = (raws archives).toFinset ∧ depthCacheOf archives = .ok st.depthCache ∧
      st.lastFull = lastFullOf archives ∧ st.steps = [] := by
  unfold initialPlanState at h
  cases hd : depthCacheOf archives with
  | error e => simp [hd, Except.map] at h
  | ok cache =>
    simp only [hd, Except.map, Except.ok.injEq] at h
    subst h
    exact ⟨rfl, rfl, rfl, rfl⟩

theorem lastFullOf_some {archives : List VolumeArchive} {f : Timestamp}
    (h : lastFullOf archives = some f) :
    ∃ a ∈ archives, a.isIncremental = false ∧ a.timestamp = f := by
  obtain ⟨a, ha, rfl⟩ := Option.map_eq_some_iff.mp h
  refine ⟨a, List.mem_reverse.mp (List.mem_of_find?_eq_some ha), ?_, rfl⟩
  simpa using List.find?_some ha

/-- The planned steps of a returned plan, from the initial state over all snapshots. -/
theorem buildPlan_planned {src : SourceState} {dest : DestState} {policy : SendPolicy}
    {plan : RunPlan} (h : buildPlan src dest policy = .ok plan) :
    ∃ st st', initialPlanState dest.archives = .ok st ∧
      Planned policy src st src.snapshots plan.steps st' := by
  obtain ⟨st, st', hi, hl, rfl⟩ := buildPlan_eq_ok.mp h
  obtain ⟨steps, hsteps, hp⟩ := planLoop_planned hl
  refine ⟨st, st', hi, ?_⟩
  rw [hsteps, (initialPlanState_ok hi).2.2.2, List.nil_append]
  exact hp

/-! ## The loop variables track the metadata -/

/-- The set and the depths are those of an archive list. -/
structure Tracks (archives : List VolumeArchive) (st : PlanState) : Prop where
  wf : WellFormed archives
  destSet : st.destSet = (raws archives).toFinset
  depths : DepthsOf (parentForest archives) st.depthCache

theorem initialPlanState_tracks {archives : List VolumeArchive} (hw : WellFormed archives)
    {st : PlanState} (h : initialPlanState archives = .ok st) : Tracks archives st := by
  obtain ⟨hset, hcache, _, _⟩ := initialPlanState_ok h
  exact ⟨hw, hset, depthCacheOf_depths hw hcache⟩

theorem parentForest_cons (a : VolumeArchive) (archives : List VolumeArchive) :
    parentForest (a :: archives) =
      update (parentForest archives) a.raw (some a.parentTimestamp) := by
  funext name
  by_cases h : a.raw = name
  · subst h
    simp [parentForest]
  · have hb : (a.raw == name) = false := by simpa using h
    simp [parentForest, hb, Ne.symm h]

theorem Tracks.full {archives : List VolumeArchive} {st : PlanState} (h : Tracks archives st)
    {snap : Timestamp} (hin : snap.raw ∉ st.destSet) (chunks : List ChunkFilename) :
    Tracks ((RunStep.sendFull snap).archive chunks :: archives) (st.full snap) := by
  rw [h.destSet, List.mem_toFinset] at hin
  have hk : parentForest archives snap.raw = none := by
    by_contra hne
    exact hin (parentForest_ne_none.mp hne)
  refine ⟨⟨List.nodup_cons.mpr ⟨hin, h.wf.nodup⟩, ?_⟩, ?_, ?_⟩
  · intro a ha p hp
    rcases List.mem_cons.mp ha with rfl | ha
    · simp at hp
    · obtain ⟨hlt, b, hb, hbp⟩ := h.wf.parent a ha p hp
      exact ⟨hlt, b, List.mem_cons_of_mem _ hb, hbp⟩
  · simp [PlanState.full, h.destSet, raws]
  · rw [parentForest_cons]
    exact h.depths.insert h.wf.older hk (.root (by simp)) rfl

theorem Tracks.incremental {archives : List VolumeArchive} {st : PlanState}
    (h : Tracks archives st) {snap p : Timestamp} (hin : snap.raw ∉ st.destSet)
    (hp : p.raw ∈ st.destSet) (hlt : p.raw < snap.raw) (chunks : List ChunkFilename) :
    Tracks ((RunStep.sendIncremental snap p).archive chunks :: archives)
      (st.incremental snap p) := by
  rw [h.destSet, List.mem_toFinset] at hin hp
  have hk : parentForest archives snap.raw = none := by
    by_contra hne
    exact hin (parentForest_ne_none.mp hne)
  obtain ⟨b, hb, hbp⟩ := mem_raws.mp hp
  obtain ⟨l, hl⟩ := h.wf.exists_lineage hb
  rw [hbp] at hl
  have hdepth : st.depthOf p.raw + 1 = l.length := by
    have hpos := List.length_pos_iff.mpr hl.ne_nil
    have hget := (h.depths p.raw (l.length - 1)).mpr ⟨l, hl, by omega⟩
    rw [PlanState.depthOf, hget, Option.getD_some]
    omega
  refine ⟨⟨List.nodup_cons.mpr ⟨hin, h.wf.nodup⟩, ?_⟩, ?_, ?_⟩
  · intro a ha q hq
    rcases List.mem_cons.mp ha with rfl | ha
    · obtain rfl : p.raw = q := by simpa using hq
      exact ⟨hlt, b, List.mem_cons_of_mem _ hb, hbp⟩
    · obtain ⟨hlt, c, hc, hcp⟩ := h.wf.parent a ha q hq
      exact ⟨hlt, c, List.mem_cons_of_mem _ hc, hcp⟩
  · simp [PlanState.incremental, h.destSet, raws]
  · rw [parentForest_cons]
    have hmono : ∀ x w, parentForest archives x = some w →
        update (parentForest archives) snap.raw (some (some p.raw)) x = some w := by
      intro x w hx
      have hne : x ≠ snap.raw := by
        rintro rfl
        simp [hk] at hx
      simpa [hne] using hx
    refine h.depths.insert h.wf.older hk (.child ?_ (hl.mono hmono)) (by simp [hdepth])
    simp

theorem Tracks.perm {archives archives' : List VolumeArchive} {st : PlanState}
    (h : Tracks archives st) (hp : archives.Perm archives') : Tracks archives' st := by
  refine ⟨h.wf.perm hp, ?_, ?_⟩
  · rw [h.destSet]
    exact List.toFinset_eq_of_perm _ _ (hp.map _)
  · rw [← parentForest_perm h.wf.nodup hp]
    exact h.depths

end Bbkar
