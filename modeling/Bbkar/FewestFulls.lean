import Bbkar.PlanParents
import Bbkar.FullInterval
import Bbkar.CostRuns

/-!
# Full sends are as few as the limits allow

The planner sends in full only where a limit forces it, which puts every full send as late
as possible. No other choice of full sends for the same snapshots, with parents chosen the
same way and within the same limits, has fewer of them. This needs that no full archive on
the destination is newer than a snapshot to send: a full send would then set the last full
send back.
-/
namespace Bbkar
open ParentForest Calendar CostRuns Function

/-! ## The limits -/

def RunStep.isFull : RunStep → Bool
  | sendFull _ => true
  | sendIncremental _ _ => false

def fullCount (steps : List RunStep) : ℕ := steps.countP RunStep.isFull

/-- After the steps `before`, `s` may be sent on `p`: the best parent is taken, the chain
below it has room, and the last full send is not too far away. -/
structure WithinLimits (src : SourceState) (dest : DestState) (policy : SendPolicy)
    (before : List RunStep) (s p : Timestamp) : Prop where
  parent : BestParent src (ArchivedBefore dest before) s p
  depth : ∀ max full incs, policy.maxIncrementalDepth = some max →
    Lineage (parentForest (archivesBefore dest before)) p.raw (full :: incs) →
    incs.length + 1 < max
  interval : checkIntervalExceeded (lastFullBefore dest before) s policy.minFullSendInterval =
    .ok false

/-- Every incremental step is within the limits after the steps before it. -/
def KeepsLimits (src : SourceState) (dest : DestState) (policy : SendPolicy)
    (before steps : List RunStep) : Prop :=
  ∀ pre s p post, steps = pre ++ .sendIncremental s p :: post →
    WithinLimits src dest policy (before ++ pre) s p

theorem KeepsLimits.tail {src : SourceState} {dest : DestState} {policy : SendPolicy}
    {before steps : List RunStep} {step : RunStep}
    (h : KeepsLimits src dest policy before (step :: steps)) :
    KeepsLimits src dest policy (before ++ [step]) steps := by
  intro pre s p post hsplit
  have hlimits := h (step :: pre) s p post (by rw [hsplit, List.cons_append])
  rwa [List.append_assoc, List.singleton_append]

/-! ## The two loops -/

/-- One iteration of the planning loop, with the number of full sends it plans. -/
inductive PlannedStep (policy : SendPolicy) (src : SourceState) :
    PlanState → Timestamp → ℕ → PlanState → Prop
  | skip {st snap} (h : snap.raw ∈ st.destSet) : PlannedStep policy src st snap 0 st
  | full {st snap} (h : snap.raw ∉ st.destSet) (why : ForcedFull policy src st snap) :
      PlannedStep policy src st snap 1 (st.full snap)
  | incremental {st snap p} (h : snap.raw ∉ st.destSet)
      (why : AllowsIncremental policy src st snap p) :
      PlannedStep policy src st snap 0 (st.incremental snap p)

/-- The same with full sends at will. -/
inductive PermittedStep (policy : SendPolicy) (src : SourceState) :
    PlanState → Timestamp → ℕ → PlanState → Prop
  | skip {st snap} (h : snap.raw ∈ st.destSet) : PermittedStep policy src st snap 0 st
  | full {st snap} (h : snap.raw ∉ st.destSet) :
      PermittedStep policy src st snap 1 (st.full snap)
  | incremental {st snap p} (h : snap.raw ∉ st.destSet)
      (why : AllowsIncremental policy src st snap p) :
      PermittedStep policy src st snap 0 (st.incremental snap p)

theorem wouldExceedDepth_eq_false {policy : SendPolicy} {n : ℕ} :
    wouldExceedDepth policy n = false ↔
      ∀ max, policy.maxIncrementalDepth = some max → n + 1 < max := by
  unfold wouldExceedDepth
  cases policy.maxIncrementalDepth <;> simp

/-- A planned run is a run of iterations. -/
theorem Planned.costRun {policy : SendPolicy} {src : SourceState} {st st' : PlanState}
    {snaps : List Timestamp} {steps : List RunStep} (h : Planned policy src st snaps steps st') :
    CostRun (PlannedStep policy src) st snaps (fullCount steps) st' := by
  induction h with
  | nil => exact .nil
  | skip hin _ ih => simpa using CostRun.cons (.skip hin) ih
  | full hin why _ ih =>
    rw [fullCount, List.countP_cons_of_pos rfl, add_comm]
    exact .cons (.full hin why) ih
  | incremental hin why _ ih =>
    rw [fullCount, List.countP_cons_of_neg (by simp [RunStep.isFull])]
    simpa [fullCount] using CostRun.cons (.incremental hin why) ih

/-- The loop variables are those after the steps `before`. -/
structure AfterSteps (dest : DestState) (before : List RunStep) (st : PlanState) : Prop where
  tracks : Tracks (archivesBefore dest before) st
  lastFull : st.lastFull = lastFullBefore dest before

namespace AfterSteps

variable {src : SourceState} {dest : DestState} {policy : SendPolicy} {before : List RunStep}
  {st : PlanState} {snap p : Timestamp}

theorem names (h : AfterSteps dest before st) :
    (· ∈ st.destSet) = ArchivedBefore dest before := by
  funext name
  rw [h.tracks.destSet, List.mem_toFinset, eq_iff_iff, mem_raws]
  simp [archivesBefore, ArchivedBefore, or_and_right, exists_or, or_comm]

theorem full (h : AfterSteps dest before st) (hin : snap.raw ∉ st.destSet) :
    AfterSteps dest (before ++ [.sendFull snap]) (st.full snap) := by
  refine ⟨by simpa [archivesBefore] using h.tracks.full hin [], ?_⟩
  simp [lastFullBefore, PlanState.full]

theorem incremental (h : AfterSteps dest before st) (hin : snap.raw ∉ st.destSet)
    (hp : p.raw ∈ st.destSet) (hlt : p.raw < snap.raw) :
    AfterSteps dest (before ++ [.sendIncremental snap p]) (st.incremental snap p) := by
  refine ⟨by simpa [archivesBefore] using h.tracks.incremental hin hp hlt [], ?_⟩
  simpa [lastFullBefore, PlanState.incremental] using h.lastFull

/-- A step within the limits is one that the loop allows. -/
theorem allows (h : AfterSteps dest before st)
    (hlimits : WithinLimits src dest policy before snap p) :
    AllowsIncremental policy src st snap p := by
  have hbest : BestParent src (· ∈ st.destSet) snap p := h.names ▸ hlimits.parent
  refine ⟨findParentCandidate_eq_some.mpr hbest, h.lastFull ▸ hlimits.interval,
    wouldExceedDepth_eq_false.mpr fun max hmax => ?_⟩
  have hp : p.raw ∈ raws (archivesBefore dest before) := by
    simpa [h.tracks.destSet] using hbest.archived
  obtain ⟨a, ha, hraw⟩ := mem_raws.mp hp
  obtain ⟨l, hl⟩ := h.tracks.wf.exists_lineage ha
  rw [hraw] at hl
  obtain ⟨full, incs, rfl⟩ := List.exists_cons_of_ne_nil hl.ne_nil
  rw [h.tracks.depthOf_eq hl]
  exact hlimits.depth max full incs hmax hl

/-- And the other way. -/
theorem withinLimits (h : AfterSteps dest before st)
    (hallows : AllowsIncremental policy src st snap p) :
    WithinLimits src dest policy before snap p := by
  refine ⟨h.names ▸ findParentCandidate_eq_some.mp hallows.candidate, ?_,
    h.lastFull ▸ hallows.interval⟩
  intro max full incs hmax hl
  rw [← h.tracks.depthOf_eq hl]
  exact wouldExceedDepth_eq_false.mp hallows.depth max hmax

end AfterSteps

/-- The planned steps are within the limits. -/
theorem Planned.keepsLimits {policy : SendPolicy} {src : SourceState} (hsrc : src.Parsed)
    {dest : DestState} {st st' : PlanState} {snaps : List Timestamp} {steps : List RunStep}
    (h : Planned policy src st snaps steps st') (hmem : ∀ s ∈ snaps, s ∈ src.snapshots)
    {before : List RunStep} (hat : AfterSteps dest before st) :
    KeepsLimits src dest policy before steps := by
  induction h generalizing before with
  | nil => simp [KeepsLimits]
  | skip _ _ ih => exact ih (fun s hs => hmem s (List.mem_cons_of_mem _ hs)) hat
  | @full st snap _ _ _ hin why _ ih =>
    have hrest := ih (fun s hs => hmem s (List.mem_cons_of_mem _ hs)) (hat.full hin)
    rintro pre s p post hsplit
    cases pre with
    | nil => simp at hsplit
    | cons step pre =>
      obtain ⟨rfl, rfl⟩ := List.cons.inj hsplit
      simpa using hrest pre s p post rfl
  | @incremental st snap q _ _ _ hin why _ ih =>
    obtain ⟨hq, hlt, hqd, -⟩ := findParentCandidate_some why.candidate
    have hraw : q.raw < snap.raw :=
      ((hsrc q hq).lt_iff (hsrc snap (hmem snap (by simp)))).mp hlt
    have hrest := ih (fun s hs => hmem s (List.mem_cons_of_mem _ hs))
      (hat.incremental hin hqd hraw)
    rintro pre s p post hsplit
    cases pre with
    | nil =>
      obtain ⟨⟨rfl, rfl⟩, rfl⟩ : (snap = s ∧ q = p) ∧ _ = post := by simpa using hsplit
      simpa using hat.withinLimits why
    | cons step pre =>
      obtain ⟨rfl, rfl⟩ := List.cons.inj hsplit
      simpa using hrest pre s p post rfl

/-- Whatever is chosen for the next snapshot, within the limits it is permitted. -/
theorem AfterSteps.permitted_cons {policy : SendPolicy} {src : SourceState} (hsrc : src.Parsed)
    {dest : DestState} {al : PlanState} {before steps : List RunStep} {snap : Timestamp}
    {snaps sent : List Timestamp} (hat : AfterSteps dest before al) (hsnap : snap ∈ src.snapshots)
    (hin : snap.raw ∉ al.destSet) (hsnaps : steps.map RunStep.snap = snap :: sent)
    (hlimits : KeepsLimits src dest policy before steps)
    (hrest : ∀ (al₁ : PlanState) (before₁ rest : List RunStep),
      al₁.destSet = insert snap.raw al.destSet → AfterSteps dest before₁ al₁ →
      rest.map RunStep.snap = sent → KeepsLimits src dest policy before₁ rest →
      ∃ al', CostRun (PermittedStep policy src) al₁ snaps (fullCount rest) al') :
    ∃ al', CostRun (PermittedStep policy src) al (snap :: snaps) (fullCount steps) al' := by
  obtain ⟨step, rest, rfl, rfl, hmap⟩ := List.map_eq_cons_iff.mp hsnaps
  cases step with
  | sendFull s =>
    obtain ⟨al', hrun⟩ := hrest _ _ rest rfl (hat.full hin) hmap hlimits.tail
    refine ⟨al', ?_⟩
    rw [fullCount, List.countP_cons_of_pos rfl, add_comm]
    exact .cons (.full hin) hrun
  | sendIncremental s p =>
    have hallows := hat.allows (by simpa using hlimits [] s p rest rfl)
    obtain ⟨hp, hlt, hpd, -⟩ := findParentCandidate_some hallows.candidate
    have hraw : p.raw < s.raw := ((hsrc p hp).lt_iff (hsrc s hsnap)).mp hlt
    obtain ⟨al', hrun⟩ := hrest _ _ rest rfl (hat.incremental hin hpd hraw) hmap hlimits.tail
    refine ⟨al', ?_⟩
    rw [fullCount, List.countP_cons_of_neg (by simp [RunStep.isFull])]
    simpa [fullCount] using CostRun.cons (.incremental hin hallows) hrun

/-- Steps within the limits that send the same snapshots are a run of permitted ones. -/
theorem Planned.permitted {policy : SendPolicy} {src : SourceState} (hsrc : src.Parsed)
    {dest : DestState} {st st' : PlanState} {snaps : List Timestamp} {steps : List RunStep}
    (h : Planned policy src st snaps steps st') (hmem : ∀ s ∈ snaps, s ∈ src.snapshots)
    {al : PlanState} {before steps' : List RunStep} (hset : al.destSet = st.destSet)
    (hat : AfterSteps dest before al)
    (hsnaps : steps'.map RunStep.snap = steps.map RunStep.snap)
    (hlimits : KeepsLimits src dest policy before steps') :
    ∃ al', CostRun (PermittedStep policy src) al snaps (fullCount steps') al' := by
  induction h generalizing al before steps' with
  | nil =>
    obtain rfl : steps' = [] := by simpa using hsnaps
    exact ⟨al, .nil⟩
  | skip hin _ ih =>
    obtain ⟨al', hrun⟩ := ih (fun s hs => hmem s (List.mem_cons_of_mem _ hs)) hset hat hsnaps
      hlimits
    exact ⟨al', by simpa using CostRun.cons (.skip (hset ▸ hin)) hrun⟩
  | full hin _ _ ih =>
    refine hat.permitted_cons hsrc (hmem _ (by simp)) (hset ▸ hin) hsnaps hlimits ?_
    exact fun al₁ before₁ rest hset₁ => ih (fun s hs => hmem s (List.mem_cons_of_mem _ hs))
      (by rw [hset₁, hset]; rfl)
  | incremental hin _ _ ih =>
    refine hat.permitted_cons hsrc (hmem _ (by simp)) (hset ▸ hin) hsnaps hlimits ?_
    exact fun al₁ before₁ rest hset₁ => ih (fun s hs => hmem s (List.mem_cons_of_mem _ hs))
      (by rw [hset₁, hset]; rfl)

/-! ## The comparison -/

/-- An interval that does not ask for a full send does not ask for one from later on. -/
theorem checkInterval_mono {l f s : Timestamp} {interval : CalendarDuration} (hl : l.Parsed)
    (hf : f.Parsed) {dl df ds : Date} (hdl : l.date = some dl) (hdf : f.date = some df)
    (hds : s.date = some ds) (hlf : l ≤ f)
    (h : checkIntervalExceeded (some l) s interval = .ok false) :
    checkIntervalExceeded (some f) s interval = .ok false := by
  have hmono := Date.approxDays_mono (Timestamp.date_mono hl hf hlf hdl hdf)
  have hlt := approxDays_lt_of_checkInterval hdl hds h
  simp only [checkIntervalExceeded, parseDateToDays_date hdf, parseDateToDays_date hds, bind,
    Except.bind, pure, Except.pure, Except.ok.injEq, decide_eq_false_iff_not]
  omega

/-- A timestamp that has a date and is older than what is still to be sent. -/
structure BeforeRest (rest : List Timestamp) (destSet : Finset String) (t : Timestamp) :
    Prop where
  parsed : t.Parsed
  dated : ∃ d, t.date = some d
  older : ∀ s ∈ rest, s.raw ∉ destSet → t ≤ s

theorem BeforeRest.tail {rest : List Timestamp} {destSet destSet' : Finset String}
    {snap t : Timestamp} (h : BeforeRest (snap :: rest) destSet t) (hsub : destSet ⊆ destSet') :
    BeforeRest rest destSet' t :=
  ⟨h.parsed, h.dated, fun s hs hin => h.older s (List.mem_cons_of_mem _ hs)
    fun hc => hin (hsub hc)⟩

/-- Two loops have gone over `pre` and planned the same snapshots. -/
structure SamePlace (src : SourceState) (pre rest : List Timestamp) (st al : PlanState) :
    Prop where
  split : src.snapshots = pre ++ rest
  covered : ∀ s ∈ pre, s.raw ∈ st.destSet
  destSet : al.destSet = st.destSet
  ahead : ∀ q ∈ rest, q ∉ pre → st.depthOf q.raw = al.depthOf q.raw
  last : ∀ t, st.lastFull = some t → BeforeRest rest st.destSet t
  lastOther : ∀ t, al.lastFull = some t → BeforeRest rest st.destSet t

/-- The first has the later full send and the shorter chain at the snapshot it is at. -/
structure Fresher (src : SourceState) (pre rest : List Timestamp) (st al : PlanState) :
    Prop extends SamePlace src pre rest st al where
  lastFull : ∀ l, al.lastFull = some l → ∃ f, st.lastFull = some f ∧ l ≤ f
  depth : ∀ q ∈ pre, (∀ r ∈ pre, r ≤ q) → st.depthOf q.raw ≤ al.depthOf q.raw

section Compare

variable {policy : SendPolicy} {src : SourceState} {pre rest : List Timestamp}
  {st st' al al' : PlanState} {snap : Timestamp}

theorem BeforeRest.of_split (hsrc : src.Parsed) (hdates : ∀ s ∈ src.snapshots, ∃ e, s.date = some e)
    (hsplit : src.snapshots = pre ++ snap :: rest) (destSet : Finset String) :
    BeforeRest rest destSet snap := by
  have hsorted : (pre ++ snap :: rest).Pairwise (· ≤ ·) := hsplit ▸ src.volume.sorted
  have hmem : snap ∈ src.snapshots := by simp [hsplit]
  have hlater := (List.pairwise_cons.mp (List.pairwise_append.mp hsorted).2.1).1
  exact ⟨hsrc snap hmem, hdates snap hmem, fun s hs _ => hlater s hs⟩

theorem SamePlace.send (h : SamePlace src pre (snap :: rest) st al) (hsrc : src.Parsed)
    (hdates : ∀ s ∈ src.snapshots, ∃ e, s.date = some e) (hs : st.Sends snap st')
    (ha : al.Sends snap al') : SamePlace src (pre ++ [snap]) rest st' al' := by
  have hsub : st.destSet ⊆ st'.destSet := hs.destSet ▸ Finset.subset_insert _ _
  have hsnap := BeforeRest.of_split hsrc hdates h.split st'.destSet
  refine ⟨by simp [h.split], ?_, by rw [ha.destSet, hs.destSet, h.destSet], ?_, ?_, ?_⟩
  · intro s hs'
    rcases List.mem_append.mp hs' with hs' | hs'
    · exact hsub (h.covered s hs')
    · rw [List.mem_singleton.mp hs', hs.destSet]
      exact Finset.mem_insert_self _ _
  · intro q hq hnot
    have hne : q.raw ≠ snap.raw := by
      intro hraw
      have hqmem : q ∈ src.snapshots := by simp [h.split, hq]
      have hsmem : snap ∈ src.snapshots := by simp [h.split]
      exact hnot (by simp [(hsrc q hqmem).ext (hsrc snap hsmem) hraw])
    rw [hs.depths _ hne, ha.depths _ hne]
    exact h.ahead q (List.mem_cons_of_mem _ hq) fun hc => hnot (List.mem_append_left _ hc)
  · intro t ht
    rcases hs.lastFull with hl | hl
    · exact (h.last t (hl ▸ ht)).tail hsub
    · exact Option.some.inj (hl.symm.trans ht) ▸ hsnap
  · intro t ht
    rcases ha.lastFull with hl | hl
    · exact (h.lastOther t (hl ▸ ht)).tail hsub
    · exact Option.some.inj (hl.symm.trans ht) ▸ hsnap

/-- After a snapshot only the chain below it counts, as the next one is sent on top of it. -/
theorem SamePlace.fresher (h : SamePlace src (pre ++ [snap]) rest st al)
    (hlast : ∀ l, al.lastFull = some l → ∃ f, st.lastFull = some f ∧ l ≤ f)
    (hdepth : st.depthOf snap.raw ≤ al.depthOf snap.raw) :
    Fresher src (pre ++ [snap]) rest st al := by
  refine ⟨h, hlast, fun q hq hmax => ?_⟩
  have hsorted : ((pre ++ [snap]) ++ rest).Pairwise (· ≤ ·) := h.split ▸ src.volume.sorted
  have hle : q ≤ snap := by
    rcases List.mem_append.mp hq with hq | hq
    · exact (List.pairwise_append.mp (List.pairwise_append.mp hsorted).1).2.2 q hq snap (by simp)
    · exact (List.mem_singleton.mp hq).le
  rw [le_antisymm hle (hmax snap (by simp))]
  exact hdepth

theorem SamePlace.skip (h : SamePlace src pre (snap :: rest) st al)
    (hin : snap.raw ∈ st.destSet) : SamePlace src (pre ++ [snap]) rest st al := by
  refine ⟨by simp [h.split], ?_, h.destSet, ?_, fun t ht => (h.last t ht).tail subset_rfl,
    fun t ht => (h.lastOther t ht).tail subset_rfl⟩
  · intro s hs
    rcases List.mem_append.mp hs with hs | hs
    · exact h.covered s hs
    · exact List.mem_singleton.mp hs ▸ hin
  · exact fun q hq hnot => h.ahead q (List.mem_cons_of_mem _ hq)
      fun hc => hnot (List.mem_append_left _ hc)

theorem Fresher.skip (h : Fresher src pre (snap :: rest) st al) (hin : snap.raw ∈ st.destSet) :
    Fresher src (pre ++ [snap]) rest st al := by
  refine (h.toSamePlace.skip hin).fresher h.lastFull ?_
  by_cases hpre : snap ∈ pre
  · -- a repeated snapshot is the greatest so far
    have hsorted : (pre ++ snap :: rest).Pairwise (· ≤ ·) := h.split ▸ src.volume.sorted
    exact h.depth snap hpre fun r hr =>
      (List.pairwise_append.mp hsorted).2.2 r hr snap (by simp)
  · exact (h.ahead snap (by simp) hpre).le

/-- The parent of the next snapshot is the one in front of it. -/
theorem SamePlace.parent (h : SamePlace src pre (snap :: rest) st al)
    (hin : snap.raw ∉ st.destSet) {p : Timestamp}
    (hp : findParentCandidate snap st.destSet (srcNamesOf src) src = some p) :
    p ∈ pre ∧ ∀ r ∈ pre, r ≤ p := by
  have hsorted : (pre ++ snap :: rest).Pairwise (· ≤ ·) := h.split ▸ src.volume.sorted
  obtain ⟨-, hrest, hbefore⟩ := List.pairwise_append.mp hsorted
  obtain ⟨hmem, hlt, -, hmax⟩ := findParentCandidate_some hp
  refine ⟨?_, fun r hr => hmax r (by simp [h.split, hr]) ?_ (h.covered r hr)⟩
  · rw [h.split] at hmem
    rcases List.mem_append.mp hmem with hmem | hmem
    · exact hmem
    · rcases List.mem_cons.mp hmem with rfl | hmem
      · exact absurd hlt (lt_irrefl _)
      · exact absurd hlt (not_lt.mpr ((List.pairwise_cons.mp hrest).1 p hmem))
  · refine lt_of_le_of_ne (hbefore r hr snap (by simp)) ?_
    rintro rfl
    exact hin (h.covered _ hr)

/-- What the other loop may send incrementally this one may as well. -/
theorem Fresher.allows (h : Fresher src pre (snap :: rest) st al)
    (hdates : ∀ s ∈ src.snapshots, ∃ e, s.date = some e) (hin : snap.raw ∉ st.destSet)
    {p : Timestamp} (ha : AllowsIncremental policy src al snap p) :
    AllowsIncremental policy src st snap p := by
  have hcand : findParentCandidate snap st.destSet (srcNamesOf src) src = some p :=
    h.destSet ▸ ha.candidate
  refine ⟨hcand, ?_, ?_⟩
  · cases hl : al.lastFull with
    | none => simpa [checkIntervalExceeded, hl, pure, Except.pure] using ha.interval
    | some l =>
      obtain ⟨f, hf, hle⟩ := h.lastFull l hl
      have hother := h.lastOther l hl
      have hown := h.last f hf
      obtain ⟨dl, hdl⟩ := hother.dated
      obtain ⟨df, hdf⟩ := hown.dated
      obtain ⟨ds, hds⟩ := hdates snap (by simp [h.split])
      rw [hf]
      exact checkInterval_mono hother.parsed hown.parsed hdl hdf hds hle (hl ▸ ha.interval)
  · obtain ⟨hpre, hmax⟩ := h.toSamePlace.parent hin hcand
    refine wouldExceedDepth_eq_false.mpr fun max hmax' => ?_
    have hroom := wouldExceedDepth_eq_false.mp ha.depth max hmax'
    have := h.depth p hpre hmax
    omega

/-- Without credit the planner is the fresher one. -/
def Credit (src : SourceState) (k : ℕ) (rest : List Timestamp) (st al : PlanState) : Prop :=
  ∃ pre, SamePlace src pre rest st al ∧ (k = 0 → Fresher src pre rest st al)

/-- A full send of the other loop is a credit. The planner uses it up by a full send that
the other does not need, and has the later full send then. -/
theorem credit_paysFor (hsrc : src.Parsed)
    (hdates : ∀ s ∈ src.snapshots, ∃ e, s.date = some e) :
    PaysFor (PlannedStep policy src) (PermittedStep policy src) (Credit src) := by
  rintro k snap rest st st' al al' c d ⟨pre, hsame, hfresh⟩ hs ha
  cases hs with
  | skip hin =>
    cases ha with
    | skip _ => exact ⟨k, le_rfl, _, hsame.skip hin, fun hk => (hfresh hk).skip hin⟩
    | full h => exact absurd (hsame.destSet ▸ hin) h
    | incremental h _ => exact absurd (hsame.destSet ▸ hin) h
  | full hin why =>
    cases ha with
    | skip h => exact absurd (hsame.destSet ▸ h) hin
    | full _ =>
      have hnext := hsame.send hsrc hdates (st.sends_full snap) (al.sends_full snap)
      exact ⟨0, by omega, _, hnext, fun _ => hnext.fresher
        (fun l hl => ⟨snap, rfl, (Option.some.inj hl).ge⟩) (by simp)⟩
    | @incremental p _ hallows =>
      have hk : k ≠ 0 := by
        rintro rfl
        have hown := (hfresh rfl).allows hdates hin hallows
        rcases why.eq with hnone | ⟨q, hq, hd⟩
        · simp [hown.candidate] at hnone
        · obtain rfl : p = q := Option.some.inj (hown.candidate.symm.trans hq)
          simp [hown.eq] at hd
      have hnext := hsame.send hsrc hdates (st.sends_full snap) (al.sends_incremental snap p)
      exact ⟨0, by omega, _, hnext, fun _ => hnext.fresher
        (fun l hl => ⟨snap, rfl, (hsame.lastOther l hl).older snap (by simp) hin⟩) (by simp)⟩
  | @incremental p hin why =>
    cases ha with
    | skip h => exact absurd (hsame.destSet ▸ h) hin
    | full _ =>
      have hnext := hsame.send hsrc hdates (st.sends_incremental snap p) (al.sends_full snap)
      exact ⟨k + 1, by omega, _, hnext, by simp⟩
    | @incremental q _ hallows =>
      have hnext := hsame.send hsrc hdates (st.sends_incremental snap p)
        (al.sends_incremental snap q)
      refine ⟨k, le_rfl, _, hnext, fun hk => hnext.fresher (hfresh hk).lastFull ?_⟩
      have hcand := hallows.candidate
      rw [hsame.destSet] at hcand
      obtain rfl : p = q := Option.some.inj (why.candidate.symm.trans hcand)
      obtain ⟨hpre, hmax⟩ := hsame.parent hin why.candidate
      simpa using (hfresh hk).depth p hpre hmax

end Compare

/-- The plan is within the limits, and with no full archive newer than what is to be sent,
nothing within the limits that sends the same snapshots has fewer full sends. -/
theorem buildPlan_fewestFulls {src : SourceState} (hsrc : src.Parsed)
    (hdates : ∀ s ∈ src.snapshots, ∃ e, s.date = some e) {dest : DestState}
    (hwf : WellFormed dest.archives)
    (hdest : ∀ a ∈ dest.archives, a.isIncremental = false → a.timestamp.Parsed ∧
      (∃ d, a.timestamp.date = some d) ∧
      ∀ s ∈ src.snapshots, s.raw ∉ raws dest.archives → a.timestamp ≤ s)
    {policy : SendPolicy} {plan : RunPlan} (h : buildPlan src dest policy = .ok plan) :
    KeepsLimits src dest policy [] plan.steps ∧
      ∀ steps, steps.map RunStep.snap = plan.steps.map RunStep.snap →
        KeepsLimits src dest policy [] steps → fullCount plan.steps ≤ fullCount steps := by
  obtain ⟨st, st', hi, hp⟩ := buildPlan_planned h
  obtain ⟨hset, -, hlast, -⟩ := initialPlanState_ok hi
  have htracks : Tracks dest.archives st := initialPlanState_tracks hwf hi
  have hat : AfterSteps dest [] st := ⟨by simpa [archivesBefore] using htracks, hlast⟩
  refine ⟨hp.keepsLimits hsrc (fun _ hs => hs) hat, fun steps hsnaps hlimits => ?_⟩
  obtain ⟨al', halt⟩ := hp.permitted hsrc (fun _ hs => hs) rfl hat hsnaps hlimits
  have hbefore : ∀ t, st.lastFull = some t → BeforeRest src.snapshots st.destSet t := by
    intro t ht
    obtain ⟨a, ha, hfull, rfl⟩ := lastFullOf_some (hlast ▸ ht)
    obtain ⟨hparsed, hdated, hnewer⟩ := hdest a ha hfull
    refine ⟨hparsed, hdated, fun s hs hin => hnewer s hs ?_⟩
    rwa [hset, List.mem_toFinset] at hin
  have hsame : SamePlace src [] src.snapshots st st :=
    ⟨rfl, by simp, rfl, fun _ _ _ => rfl, hbefore, hbefore⟩
  have hcredit : Credit src 0 src.snapshots st st :=
    ⟨[], hsame, fun _ => ⟨hsame, fun l hl => ⟨l, hl, le_rfl⟩, by simp⟩⟩
  exact CostRun.le_add (credit_paysFor hsrc hdates) hcredit hp.costRun halt

def fourDaysSource : SourceState :=
  ⟨Series.new "root" [.plain "20230101", .plain "20230102", .plain "20230103",
    .plain "20230104"]⟩

/-- With one incremental send on each full one, two of four days have to be sent in full. -/
theorem buildPlan_fewestFulls_fourDays :
    ∃ plan, buildPlan fourDaysSource ⟨none⟩ ⟨⟨7⟩, some 2⟩ = .ok plan ∧
      fullCount plan.steps = 2 ∧
      ∀ steps, steps.map RunStep.snap = plan.steps.map RunStep.snap →
        KeepsLimits fourDaysSource ⟨none⟩ ⟨⟨7⟩, some 2⟩ [] steps → 2 ≤ fullCount steps := by
  have hdates : ∀ s ∈ fourDaysSource.snapshots, s.date.isSome := by decide
  have h : buildPlan fourDaysSource ⟨none⟩ ⟨⟨7⟩, some 2⟩ =
      .ok ⟨[.sendFull (.plain "20230101"),
        .sendIncremental (.plain "20230102") (.plain "20230101"),
        .sendFull (.plain "20230103"),
        .sendIncremental (.plain "20230104") (.plain "20230103")]⟩ := by decide
  have hwf : WellFormed (DestState.archives ⟨none⟩) := .nil
  exact ⟨_, h, rfl, (buildPlan_fewestFulls (by decide)
    (fun s hs => Option.isSome_iff_exists.mp (hdates s hs)) hwf
    (by simp [DestState.archives]) h).2⟩

end Bbkar
