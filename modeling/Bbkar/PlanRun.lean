import Bbkar.PlanLoop
import Bbkar.RunSpec

/-!
# Plans as they are executed

While a run works through its plan, the metadata it extends is the one the rest of the
plan was made for. `Fits` says what holds of a step when it is reached, and the rules at
the end turn a property of single steps into one of whole histories.
-/
namespace Bbkar
open ParentForest Codec Effects Function

/-! ## Steps and the archives they meet -/

/-- The parent a step is sent on. -/
def RunStep.parent : RunStep → Option Timestamp
  | sendFull _ => none
  | sendIncremental _ p => some p

@[simp] theorem RunStep.parent_sendFull (s : Timestamp) : (sendFull s).parent = none := rfl
@[simp] theorem RunStep.parent_sendIncremental (s p : Timestamp) :
    (sendIncremental s p).parent = some p := rfl

theorem RunStep.parentRaw_eq (step : RunStep) : step.parentRaw = step.parent.map (·.raw) := by
  cases step <;> rfl

/-- What holds of a planned step when its turn comes. The bound on the depth is known where
`tracked` says that the plan was made for well-formed metadata. -/
structure Fits (tracked : Prop) (policy : SendPolicy) (src : SourceState)
    (archives : List VolumeArchive) (step : RunStep) : Prop where
  snap_mem : step.snap ∈ src.snapshots
  fresh : step.snap.raw ∉ raws archives
  parent : ∀ p, step.parent = some p →
    p ∈ src.snapshots ∧ p < step.snap ∧ p.raw ∈ raws archives
  depth : tracked → ∀ p N l, step.parent = some p → policy.maxIncrementalDepth = some N →
    Lineage (parentForest archives) p.raw l → l.length < N

/-- The steps are what the loop still plans after the archives so far. -/
structure Remaining (tracked : Prop) (policy : SendPolicy) (src : SourceState)
    (archives : List VolumeArchive) (steps : List RunStep) : Prop where
  loop : ∃ st snaps st', Planned policy src st snaps steps st' ∧
    (∀ s ∈ snaps, s ∈ src.snapshots) ∧ st.destSet = (raws archives).toFinset ∧
    (∀ s ∈ src.snapshots, s ∈ snaps ∨ s.raw ∈ raws archives) ∧
    (tracked → src.Parsed ∧ Tracks archives st)

namespace Remaining

variable {tracked : Prop} {policy : SendPolicy} {src : SourceState}
  {archives archives' : List VolumeArchive} {step : RunStep} {steps : List RunStep}

theorem of_buildPlan {dest : DestState} {plan : RunPlan}
    (h : buildPlan src dest policy = .ok plan)
    (htracked : tracked → src.Parsed ∧ WellFormed dest.archives) :
    Remaining tracked policy src dest.archives plan.steps := by
  obtain ⟨st, st', hi, hp⟩ := buildPlan_planned h
  exact ⟨st, src.snapshots, st', hp, fun _ hs => hs, (initialPlanState_ok hi).1,
    fun _ hs => Or.inl hs,
    fun ht => ⟨(htracked ht).1, initialPlanState_tracks (htracked ht).2 hi⟩⟩

theorem perm (h : Remaining tracked policy src archives steps) (hp : archives.Perm archives') :
    Remaining tracked policy src archives' steps := by
  obtain ⟨st, snaps, st', hl, hsnaps, hset, hseen, htracks⟩ := h.loop
  refine ⟨st, snaps, st', hl, hsnaps, ?_, ?_, ?_⟩
  · rw [hset]
    exact List.toFinset_eq_of_perm _ _ (hp.map _)
  · intro s hs
    exact (hseen s hs).imp_right (hp.map VolumeArchive.raw).mem_iff.mp
  · exact fun ht => ⟨(htracks ht).1, (htracks ht).2.perm hp⟩

theorem seen_cons {snap : Timestamp} {snaps : List Timestamp}
    (h : ∀ s ∈ src.snapshots, s ∈ snap :: snaps ∨ s.raw ∈ raws archives)
    {a : VolumeArchive} (ha : a.raw = snap.raw) :
    ∀ s ∈ src.snapshots, s ∈ snaps ∨ s.raw ∈ raws (a :: archives) := by
  intro s hs
  rcases h s hs with hs | hs
  · rcases List.mem_cons.mp hs with rfl | hs
    · exact Or.inr (by simp [raws, ha])
    · exact Or.inl hs
  · exact Or.inr (List.mem_cons_of_mem _ hs)

/-- The next step fits, and what remains after it fits the archives with its own. -/
theorem uncons (h : Remaining tracked policy src archives (step :: steps)) :
    Fits tracked policy src archives step ∧
      ∀ chunks, Remaining tracked policy src (step.archive chunks :: archives) steps := by
  obtain ⟨st, snaps, st', hl, hsnaps, hset, hseen, htracks⟩ := h.loop
  generalize hsteps : step :: steps = all at hl
  induction hl with
  | nil => simp at hsteps
  | @skip st snap snaps _ _ hin _ ih =>
    refine ih (fun s hs => hsnaps s (List.mem_cons_of_mem _ hs)) hset ?_ htracks hsteps
    intro s hs
    rcases hseen s hs with hs | hs
    · rcases List.mem_cons.mp hs with rfl | hs
      · exact Or.inr (by rwa [hset, List.mem_toFinset] at hin)
      · exact Or.inl hs
    · exact Or.inr hs
  | @full st snap snaps _ _ hin why hp =>
    obtain ⟨rfl, rfl⟩ := List.cons.inj hsteps
    have hfresh : snap.raw ∉ raws archives := by rwa [hset, List.mem_toFinset] at hin
    refine ⟨⟨hsnaps snap (by simp), hfresh, by simp, by simp⟩, fun chunks => ?_⟩
    refine ⟨_, snaps, _, hp, fun s hs => hsnaps s (List.mem_cons_of_mem _ hs), ?_, ?_, ?_⟩
    · simp [PlanState.full, hset, raws]
    · exact seen_cons hseen rfl
    · exact fun ht => ⟨(htracks ht).1, (htracks ht).2.full hin chunks⟩
  | @incremental st snap p snaps _ _ hin why hp =>
    obtain ⟨rfl, rfl⟩ := List.cons.inj hsteps
    have hfresh : snap.raw ∉ raws archives := by rwa [hset, List.mem_toFinset] at hin
    have hsnap := hsnaps snap (by simp)
    obtain ⟨hpsrc, hlt, hpset, -⟩ := findParentCandidate_some why.candidate
    have hpraw : p.raw ∈ raws archives := by rwa [hset, List.mem_toFinset] at hpset
    refine ⟨⟨hsnap, hfresh, ?_, ?_⟩, fun chunks => ?_⟩
    · intro q hq
      obtain rfl : p = q := by simpa using hq
      exact ⟨hpsrc, hlt, hpraw⟩
    · intro ht q N l hq hN hl
      obtain rfl : p = q := by simpa using hq
      have hpos := List.length_pos_iff.mpr hl.ne_nil
      have hget := ((htracks ht).2.depths p.raw (l.length - 1)).mpr ⟨l, hl, by omega⟩
      have hdepth := why.depth
      rw [PlanState.depthOf, hget, wouldExceedDepth, hN] at hdepth
      simp only [Option.getD_some, ge_iff_le, decide_eq_false_iff_not, not_le] at hdepth
      omega
    · refine ⟨_, snaps, _, hp, fun s hs => hsnaps s (List.mem_cons_of_mem _ hs), ?_, ?_, ?_⟩
      · simp [PlanState.incremental, hset, raws]
      · exact seen_cons hseen rfl
      · intro ht
        obtain ⟨hsrc, htr⟩ := htracks ht
        exact ⟨hsrc, htr.incremental hin hpset
          (((hsrc p hpsrc).lt_iff (hsrc snap hsnap)).mp hlt) chunks⟩

end Remaining

theorem Planned.eq_of_nil {policy : SendPolicy} {src : SourceState} {st st' : PlanState}
    {snaps : List Timestamp} (h : Planned policy src st snaps [] st') : st' = st := by
  generalize hsteps : ([] : List RunStep) = steps at h
  induction h with
  | nil => rfl
  | skip _ _ ih => exact ih hsteps
  | full _ _ _ => simp at hsteps
  | incremental _ _ _ => simp at hsteps

/-- With no step left every source snapshot is archived. -/
theorem Remaining.nil_archived {tracked : Prop} {policy : SendPolicy} {src : SourceState}
    {archives : List VolumeArchive} (h : Remaining tracked policy src archives []) :
    ∀ s ∈ src.snapshots, s.raw ∈ raws archives := by
  obtain ⟨st, snaps, st', hl, -, hset, hseen, -⟩ := h.loop
  intro s hs
  rcases hseen s hs with hs | hs
  · have hmem := hl.covers s hs
    rwa [hl.eq_of_nil, hset, List.mem_toFinset] at hmem
  · exact hs

/-! ## Rules for volumes, runs and histories -/

/-- The metadata a run extends: the one on the destination, or a new one without archives. -/
def Link (volume : String) (m : DestMeta) (store : Store) : Prop :=
  Persisted store volume m ∨ (store (metaKey volume) = none ∧ m.archives = [])

theorem Link.congr {volume : String} {m : DestMeta} {store store' : Store}
    (h : Link volume m store) (hkey : store' (metaKey volume) = store (metaKey volume)) :
    Link volume m store' := by
  rwa [Link, Persisted, hkey]

/-- The linked metadata is unique up to the timestamps of a new one. -/
theorem Link.archives_eq {volume : String} {m m' : DestMeta} {store : Store}
    (h : Link volume m store) (h' : Link volume m' store) : m.archives = m'.archives := by
  rcases h with h | ⟨hkey, h⟩
  · rcases h' with h' | ⟨hkey', -⟩
    · rw [h.unique h']
    · simp [Persisted, hkey'] at h
  · rcases h' with h' | ⟨-, h'⟩
    · simp [Persisted, hkey] at h'
    · rw [h, h']

/-- The planner reads the archives of the linked metadata. -/
theorem Link.destStateOn_archives {volume : String} {m : DestMeta} {store : Store}
    (h : Link volume m store) : (destStateOn store volume).archives = m.archives := by
  rcases h with hp | ⟨hnone, hnil⟩
  · rw [destStateOn_persisted hp]
    rfl
  · rw [destStateOn, hnone, hnil]
    rfl

/-- Whether a property depends on the store and the record of its changes alone. -/
def Observes (I : World → Prop) : Prop :=
  ∀ w w', w'.store = w.store → w'.trace = w.trace → I w → I w'

/-- `I` holds as long as the steps of a plan for the volume succeed, and `E` once one has
failed. -/
structure KeepsSteps (tracked : Prop) (H : IncrementalHash) (Z : StreamEncoder) (env : Env)
    (ctx : VolumeContext) (I E : World → Prop) : Prop where
  start : tracked → ctx.srcState.Parsed ∧
    ∀ w m, I w → Link ctx.volume m w.store → WellFormed m.archives
  error : ∀ w, I w → E w
  sending : ∀ m step stream w w', I w → Link ctx.volume m w.store →
    Fits tracked ctx.sendPolicy ctx.srcState m.archives step →
    Sending env ctx step stream w w' → E w'
  tried : ∀ m step stream chunks now w w₁ w', I w → Link ctx.volume m w.store →
    Fits tracked ctx.sendPolicy ctx.srcState m.archives step →
    Sent H Z env ctx step stream chunks w w₁ →
    MetaTried ctx.volume (m.after step chunks now) w₁ w' → E w'
  done : ∀ m step stream chunks now w w₁ w', I w → Link ctx.volume m w.store →
    Fits tracked ctx.sendPolicy ctx.srcState m.archives step →
    Sent H Z env ctx step stream chunks w w₁ →
    MetaTried ctx.volume (m.after step chunks now) w₁ w' →
    Persisted w'.store ctx.volume (m.after step chunks now) → I w'

/-- An invariant holds in either case. -/
theorem KeepsSteps.invariant {tracked : Prop} {H : IncrementalHash} {Z : StreamEncoder}
    {env : Env} {ctx : VolumeContext} {I : World → Prop}
    (start : tracked → ctx.srcState.Parsed ∧
      ∀ w m, I w → Link ctx.volume m w.store → WellFormed m.archives)
    (sending : ∀ m step stream w w', I w → Link ctx.volume m w.store →
      Fits tracked ctx.sendPolicy ctx.srcState m.archives step →
      Sending env ctx step stream w w' → I w')
    (sent : ∀ m step stream chunks now w w₁ w', I w → Link ctx.volume m w.store →
      Fits tracked ctx.sendPolicy ctx.srcState m.archives step →
      Sent H Z env ctx step stream chunks w w₁ →
      MetaTried ctx.volume (m.after step chunks now) w₁ w' → I w') :
    KeepsSteps tracked H Z env ctx I I :=
  ⟨start, fun _ hw => hw, sending, sent,
    fun m step stream chunks now w w₁ w' hw hl hf hs ht _ =>
      sent m step stream chunks now w w₁ w' hw hl hf hs ht⟩

/-- Two invariants together. -/
theorem KeepsSteps.and {tracked : Prop} {H : IncrementalHash} {Z : StreamEncoder} {env : Env}
    {ctx : VolumeContext} {I I' : World → Prop} (h : KeepsSteps tracked H Z env ctx I I)
    (h' : KeepsSteps tracked H Z env ctx I' I') :
    KeepsSteps tracked H Z env ctx (fun w => I w ∧ I' w) (fun w => I w ∧ I' w) := by
  refine .invariant ?_ ?_ ?_
  · exact fun ht => ⟨(h.start ht).1, fun w m hw => (h.start ht).2 w m hw.1⟩
  · intro m step stream w w' hw hl hf hs
    exact ⟨h.sending m step stream w w' hw.1 hl hf hs,
      h'.sending m step stream w w' hw.2 hl hf hs⟩
  · intro m step stream chunks now w w₁ w' hw hl hf hs ht
    exact ⟨h.tried m step stream chunks now w w₁ w' hw.1 hl hf hs ht,
      h'.tried m step stream chunks now w w₁ w' hw.2 hl hf hs ht⟩

section Rules

variable {tracked : Prop} {H : IncrementalHash} {Z : StreamEncoder} {env : Env}
  {ctx : VolumeContext} {I E : World → Prop}

/-- Reading metadata finds what a run can extend. -/
theorem inspectDestVolume_spec (hobs : Observes I) (hE : ∀ w, I w → E w) {w : World}
    (hw : I w) :
    wp (inspectDestVolume env ctx.volume)
      (fun dest w' => I w' ∧ ((dest.destMeta = none ∧ w'.store (metaKey ctx.volume) = none) ∨
        ∃ m, dest.destMeta = some m ∧ Persisted w'.store ctx.volume m))
      (fun _ => E) w := by
  have htick : I w.tick := hobs w _ rfl rfl hw
  unfold inspectDestVolume
  simp only [wp_bind, wp_call, wp_get]
  refine ⟨fun _ => ?_, fun _ _ => hE _ htick⟩
  cases hkey : w.tick.store (metaKey ctx.volume) with
  | none => exact ⟨htick, Or.inl ⟨rfl, hkey⟩⟩
  | some blob =>
    cases blob with
    | part bytes => exact hE _ htick
    | metadata m =>
      exact ⟨htick, Or.inr ⟨m, by simp, hkey⟩⟩

/-- Every source snapshot of the volume is archived. -/
def Archived (ctx : VolumeContext) (store : Store) : Prop :=
  ∃ m, Link ctx.volume m store ∧ ∀ s ∈ ctx.srcState.snapshots, s.raw ∈ raws m.archives

/-- The loop over the steps keeps the property and ends with everything archived. -/
theorem executeSteps_spec (h : KeepsSteps tracked H Z env ctx I E) {steps : List RunStep}
    {m : DestMeta} {w : World} (hw : I w) (hlink : Link ctx.volume m w.store)
    (hrest : Remaining tracked ctx.sendPolicy ctx.srcState m.archives steps) :
    wp (steps.foldlM (executeStep H Z env ctx) m)
      (fun _ w' => I w' ∧ Archived ctx w'.store) (fun _ => E) w := by
  let K : List RunStep → DestMeta → World → Prop := fun rest m w => I w ∧
    Link ctx.volume m w.store ∧ Remaining tracked ctx.sendPolicy ctx.srcState m.archives rest
  have hloop := wp_foldlM (I := K) (E := fun _ => E) (f := executeStep H Z env ctx) steps m ?_
    (s := w) ⟨hw, hlink, hrest⟩
  · refine wp_mono_ok hloop ?_
    rintro m' w' ⟨hw', hlink', hrest'⟩
    exact ⟨hw', m', hlink', hrest'.nil_archived⟩
  · rintro step rest m w ⟨hw, hlink, hrest⟩
    obtain ⟨hfits, hnext⟩ := hrest.uncons
    refine wp_mono (executeStep_spec H Z env ctx m step w) ?_ ?_
    · rintro m' w' ⟨stream, chunks, now, w₁, hsent, rfl, htried, hp⟩
      refine ⟨h.done m step stream chunks now w w₁ w' hw hlink hfits hsent htried hp, Or.inl hp,
        ?_⟩
      exact (hnext chunks).perm (DestMeta.addArchive_perm m _).symm
    · rintro _ w' ⟨stream, hsending | ⟨chunks, now, w₁, hsent, htried⟩⟩
      · exact h.sending m step stream w w' hw hlink hfits hsending
      · exact h.tried m step stream chunks now w w₁ w' hw hlink hfits hsent htried

/-- What no step breaks holds after the volume, and success means everything is archived. -/
theorem runVolume_spec (hobs : Observes I) (h : KeepsSteps tracked H Z env ctx I E) {w : World}
    (hw : I w) :
    wp (runVolume H Z env ctx) (fun _ w' => I w' ∧ Archived ctx w'.store) (fun _ => E) w := by
  unfold runVolume
  simp only [wp_bind, wp_liftExcept, wp_modify]
  refine wp_mono_ok (inspectDestVolume_spec hobs h.error hw) ?_
  rintro dest w₁ ⟨hw₁, hdest⟩
  refine ⟨fun plan hplan => ?_, fun _ _ => h.error _ hw₁⟩
  have hlink : ∀ m, Opens dest m → Link ctx.volume m w₁.store := by
    rintro m hopen
    rcases hdest with ⟨hnone, hkey⟩ | ⟨m', hm', hp⟩
    · rcases hopen with hm | ⟨-, now, rfl⟩
      · cases hnone.symm.trans hm
      · exact Or.inr ⟨hkey, rfl⟩
    · rcases hopen with hm | ⟨hnone, -⟩
      · obtain rfl := Option.some.inj (hm'.symm.trans hm)
        exact Or.inl hp
      · cases hnone.symm.trans hm'
  -- the plan was made for the metadata to extend
  have hremaining : ∀ m, Opens dest m →
      Remaining tracked ctx.sendPolicy ctx.srcState m.archives plan.steps := by
    intro m hopen
    rw [hopen.archives_eq]
    exact Remaining.of_buildPlan hplan fun ht =>
      ⟨(h.start ht).1, hopen.archives_eq ▸ (h.start ht).2 w₁ m hw₁ (hlink m hopen)⟩
  unfold executePlan
  split_ifs with hempty
  · rw [wp_pure]
    rw [List.isEmpty_iff] at hempty
    obtain ⟨m, hopen⟩ := exists_opens dest
    have hnil : Remaining tracked ctx.sendPolicy ctx.srcState m.archives [] :=
      hempty ▸ hremaining m hopen
    exact ⟨hobs w₁ _ rfl rfl hw₁, m, hlink m hopen, hnil.nil_archived⟩
  · simp only [wp_bind, wp_pure]
    refine wp_mono openMeta_spec ?_ fun _ _ h => h.elim
    rintro m w₂ ⟨hopen, hsame⟩
    have hstore : w₂.store = w₁.store := by rcases hsame with rfl | rfl <;> rfl
    have htrace : w₂.trace = w₁.trace := by rcases hsame with rfl | rfl <;> rfl
    refine wp_mono_ok (executeSteps_spec h (hobs w₁ w₂ hstore htrace hw₁)
      (hstore ▸ hlink m hopen) (hremaining m hopen)) ?_
    exact fun m' w' hw' => ⟨hobs w' _ rfl rfl hw'.1, hw'.2⟩

/-- The volumes a run visits, unless it stops before. -/
structure Visits (env : Env) (config : Config) (ctx : VolumeContext) : Prop where
  visit : ∃ sync states, config.sync = some sync ∧ env.inspectSource = .ok states ∧
    (ctx.volume, ctx.srcState) ∈ states ∧
    sync.filter.any (wildcardMatch · ctx.volume) = true ∧ ctx.backend = config.backend ∧
    ctx.maxBackupChunkSize = config.maxBackupChunkSize ∧ ctx.sendPolicy = sync.send

theorem Visits.matches {config : Config} (h : Visits env config ctx) {sync : SyncSpec}
    (hs : config.sync = some sync) :
    sync.filter.any (wildcardMatch · ctx.volume) = true := by
  obtain ⟨sync', _, hs', _, _, hfilter, _⟩ := h.visit
  rw [hs] at hs'
  rwa [Option.some.inj hs']

theorem Visits.eq_of_state {config : Config} (h : Visits env config ctx) {sync : SyncSpec}
    (hs : config.sync = some sync) {state : String × SourceState}
    (hstate : (ctx.volume, ctx.srcState) = state) :
    ctx = ⟨config.backend, config.maxBackupChunkSize, state.1, state.2, sync.send⟩ := by
  obtain ⟨sync', _, hs', _, _, _, hbackend, hsize, hpolicy⟩ := h.visit
  obtain rfl : sync = sync' := by
    rw [hs] at hs'
    exact Option.some.inj hs'
  subst hstate
  rw [← hbackend, ← hsize, ← hpolicy]

/-- After a successful run each visited volume has its own postcondition `J`, provided that
no later volume breaks it. -/
theorem runSync_spec {J : VolumeContext → World → Prop} (hobs : Observes I)
    (hE : ∀ w, I w → E w) {config : Config} {sync : SyncSpec} (hs : config.sync = some sync)
    (h : ∀ ctx, Visits env config ctx → ∀ w, I w → wp (runVolume H Z env ctx)
      (fun _ w' => I w' ∧ J ctx w' ∧ ∀ ctx', J ctx' w → J ctx' w') (fun _ => E) w)
    {w : World} (hw : I w) :
    wp (runSync H Z env config sync)
      (fun _ w' => I w' ∧ ∀ ctx, Visits env config ctx → J ctx w') (fun _ => E) w := by
  have hfresh : I (World.tick { w with
      sent := ArchiveStats.default, remote := ArchiveStats.default }) := hobs w _ rfl rfl hw
  unfold runSync
  simp only [wp_bind, wp_modify, wp_call, wp_liftExcept]
  refine ⟨fun _ => ⟨fun states hstates => ?_, fun _ _ => hE _ hfresh⟩, fun _ _ => hE _ hfresh⟩
  -- a volume is still to come, or it has its postcondition
  let K : List (String × SourceState) → World → Prop := fun rest w => I w ∧
    (∀ state ∈ rest, state ∈ states) ∧ ∀ ctx, Visits env config ctx →
      (ctx.volume, ctx.srcState) ∈ rest ∨ J ctx w
  have hmem : ∀ ctx, Visits env config ctx → (ctx.volume, ctx.srcState) ∈ states := by
    intro ctx hctx
    obtain ⟨_, states', _, hstates', hmem, _⟩ := hctx.visit
    rw [hstates] at hstates'
    rwa [Except.ok.inj hstates']
  have hloop := wp_forM (I := K) (E := fun _ => E) (f := fun state =>
    if sync.filter.any (wildcardMatch · state.1) then
      runVolume H Z env
        ⟨config.backend, config.maxBackupChunkSize, state.1, state.2, sync.send⟩
    else pure ()) states ?_ ⟨hfresh, fun _ h => h, fun ctx hctx => Or.inl (hmem ctx hctx)⟩
  · refine wp_mono_ok hloop ?_
    rintro _ w' ⟨hw', -, hall⟩
    exact ⟨hw', fun ctx hctx => (hall ctx hctx).resolve_left (by simp)⟩
  · rintro state rest w₁ ⟨hw₁, hrest, hall⟩
    have htail : ∀ state' ∈ rest, state' ∈ states :=
      fun state' h => hrest state' (List.mem_cons_of_mem _ h)
    split_ifs with hfilter
    · have hvisit : Visits env config ⟨config.backend, config.maxBackupChunkSize, state.1,
          state.2, sync.send⟩ :=
        ⟨sync, states, hs, hstates, hrest state (by simp), hfilter, rfl, rfl, rfl⟩
      refine wp_mono_ok (h _ hvisit w₁ hw₁) ?_
      rintro _ w₂ ⟨hw₂, hj, hkeep⟩
      refine ⟨hw₂, htail, fun ctx hctx => ?_⟩
      rcases hall ctx hctx with hc | hc
      · rcases List.mem_cons.mp hc with hc | hc
        · have hsame : ctx = ⟨config.backend, config.maxBackupChunkSize, state.1, state.2,
              sync.send⟩ := hctx.eq_of_state hs hc
          exact Or.inr (hsame ▸ hj)
        · exact Or.inl hc
      · exact Or.inr (hkeep ctx hc)
    · refine ⟨hw₁, htail, fun ctx hctx => ?_⟩
      rcases hall ctx hctx with hc | hc
      · rcases List.mem_cons.mp hc with hc | hc
        · exact absurd (hc ▸ hctx.matches hs) hfilter
        · exact Or.inl hc
      · exact Or.inr hc

theorem run_spec {J : VolumeContext → World → Prop} (hobs : Observes I)
    (hE : ∀ w, I w → E w) {config : Config} (name : Option String)
    (h : ∀ ctx, Visits env config ctx → ∀ w, I w → wp (runVolume H Z env ctx)
      (fun _ w' => I w' ∧ J ctx w' ∧ ∀ ctx', J ctx' w → J ctx' w') (fun _ => E) w)
    {w : World} (hw : I w) :
    wp (run H Z env config name)
      (fun _ w' => I w' ∧ ∀ ctx, Visits env config ctx → J ctx w') (fun _ => E) w := by
  have hstart : I { w with totalBytesSent := 0 } := hobs w _ rfl rfl hw
  unfold run
  rw [wp_bind, wp_modify]
  cases hs : config.sync with
  | none =>
    cases name with
    | none =>
      refine ⟨hstart, fun ctx hctx => ?_⟩
      obtain ⟨_, _, hs', _⟩ := hctx.visit
      simp [hs] at hs'
    | some name => exact hE _ hstart
  | some sync =>
    cases name with
    | none => exact runSync_spec hobs hE hs h hstart
    | some name =>
      simp only
      split_ifs
      · exact runSync_spec hobs hE hs h hstart
      · exact hE _ hstart

theorem runVolume_preserves (hobs : Observes I) (h : KeepsSteps tracked H Z env ctx I I) :
    Preserves I (runVolume H Z env ctx) :=
  fun _ hw => wp_mono_ok (runVolume_spec hobs h hw) (fun _ _ hq => hq.1)

/-- A run keeps what every volume it visits keeps. -/
theorem run_preserves (hobs : Observes I) {config : Config} (name : Option String)
    (h : ∀ ctx, Visits env config ctx → Preserves I (runVolume H Z env ctx)) :
    Preserves I (run H Z env config name) := by
  intro w hw
  refine wp_mono_ok (run_spec (E := I) (J := fun _ _ => True) hobs (fun _ => id) name ?_ hw)
    (fun _ _ hq => hq.1)
  exact fun ctx hctx w hw => wp_mono_ok (h ctx hctx w hw)
    (fun _ _ hq => ⟨hq, trivial, fun _ _ => trivial⟩)

/-- What every visited volume of every run keeps holds at the end of the history. -/
theorem history_invariant (hobs : Observes I) (runs : List Invocation)
    (h : ∀ i ∈ runs, ∀ ctx, Visits i.env i.config ctx → Preserves I (runVolume H Z i.env ctx))
    {w : World} (hw : I w) : I (history H Z runs w) := by
  refine session_invariant _ ?_ hw
  intro x hx
  obtain ⟨i, hi, rfl⟩ := List.mem_map.mp hx
  exact run_preserves hobs i.name (h i hi)

end Rules

end Bbkar
