import Bbkar.History
import Bbkar.ReadPaths

/-!
# Runs converge

A plan sends exactly the source snapshots that are not archived, oldest first. After any
runs on an unchanged source, however they ended, one that succeeds leaves nothing to send.
Planning again ends as long as no archive hangs below a snapshot still to be sent.
-/
namespace Bbkar
open KeySort ParentForest Relation Codec Effects Function

/-! ## The steps of a plan -/

/-- Every snapshot that is missing is sent once, in increasing order. -/
theorem Planned.exact {policy : SendPolicy} {src : SourceState} (hsrc : src.Parsed)
    {st st' : PlanState} {snaps : List Timestamp} {steps : List RunStep}
    (h : Planned policy src st snaps steps st') (hmem : ∀ s ∈ snaps, s ∈ src.snapshots)
    (hsorted : snaps.Pairwise (· ≤ ·)) :
    (steps.map RunStep.snap).Pairwise (· < ·) ∧
      ∀ s, s ∈ steps.map RunStep.snap ↔ s ∈ snaps ∧ s.raw ∉ st.destSet := by
  -- sending one snapshot removes all of its raw timestamp from what is missing
  have hsend : ∀ {snap : Timestamp} {snaps : List Timestamp} {sent : List Timestamp}
      {st : PlanState}, (∀ s ∈ snap :: snaps, s ∈ src.snapshots) →
      (snap :: snaps).Pairwise (· ≤ ·) → snap.raw ∉ st.destSet →
      (sent.Pairwise (· < ·) ∧
        ∀ s, s ∈ sent ↔ s ∈ snaps ∧ s.raw ∉ insert snap.raw st.destSet) →
      (snap :: sent).Pairwise (· < ·) ∧
        ∀ s, s ∈ snap :: sent ↔ s ∈ snap :: snaps ∧ s.raw ∉ st.destSet := by
    rintro snap snaps sent st hmem hsorted hin ⟨hlt, hiff⟩
    refine ⟨List.pairwise_cons.mpr ⟨fun s hs => ?_, hlt⟩, fun s => ?_⟩
    · obtain ⟨hs, hnot⟩ := (hiff s).mp hs
      refine lt_of_le_of_ne ((List.pairwise_cons.mp hsorted).1 s hs) ?_
      rintro rfl
      exact hnot (Finset.mem_insert_self _ _)
    · rw [List.mem_cons, List.mem_cons, hiff, Finset.mem_insert, not_or]
      constructor
      · rintro (rfl | ⟨hs, -, hnot⟩)
        · exact ⟨Or.inl rfl, hin⟩
        · exact ⟨Or.inr hs, hnot⟩
      · rintro ⟨rfl | hs, hnot⟩
        · exact Or.inl rfl
        · by_cases hraw : s.raw = snap.raw
          · exact Or.inl ((hsrc s (hmem s (by simp [hs]))).ext (hsrc snap (hmem snap (by simp)))
              hraw)
          · exact Or.inr ⟨hs, hraw, hnot⟩
  induction h with
  | nil => simp
  | @skip st snap snaps _ _ hin _ ih =>
    obtain ⟨hlt, hiff⟩ := ih (fun s hs => hmem s (List.mem_cons_of_mem _ hs))
      (List.pairwise_cons.mp hsorted).2
    refine ⟨hlt, fun s => (hiff s).trans ⟨fun h => ⟨by simp [h.1], h.2⟩, ?_⟩⟩
    rintro ⟨hs, hnot⟩
    rcases List.mem_cons.mp hs with rfl | hs
    · exact absurd hin hnot
    · exact ⟨hs, hnot⟩
  | full hin _ _ ih =>
    exact hsend hmem hsorted hin (ih (fun s hs => hmem s (List.mem_cons_of_mem _ hs))
      (List.pairwise_cons.mp hsorted).2)
  | incremental hin _ _ ih =>
    exact hsend hmem hsorted hin (ih (fun s hs => hmem s (List.mem_cons_of_mem _ hs))
      (List.pairwise_cons.mp hsorted).2)

theorem buildPlan_exact {src : SourceState} (hsrc : src.Parsed) {dest : DestState}
    {policy : SendPolicy} {plan : RunPlan} (h : buildPlan src dest policy = .ok plan) :
    (plan.steps.map RunStep.snap).Pairwise (· < ·) ∧
      ∀ s, s ∈ plan.steps.map RunStep.snap ↔
        s ∈ src.snapshots ∧ s.raw ∉ raws dest.archives := by
  obtain ⟨st, st', hi, hp⟩ := buildPlan_planned h
  obtain ⟨hlt, hiff⟩ := hp.exact hsrc (fun _ hs => hs) src.volume.sorted
  refine ⟨hlt, fun s => ?_⟩
  rw [hiff, (initialPlanState_ok hi).1, List.mem_toFinset]

/-- The date of the timestamp can be sliced, whether or not it is one. -/
def ReadableDate (t : Timestamp) : Prop := ∃ days, parseDateToDays t.timestamp = .ok days

theorem checkIntervalExceeded_isOk {lastFull : Option Timestamp} {current : Timestamp}
    (hlast : ∀ l, lastFull = some l → ReadableDate l) (hcurrent : ReadableDate current)
    (interval : CalendarDuration) :
    ∃ b, checkIntervalExceeded lastFull current interval = .ok b := by
  unfold checkIntervalExceeded
  cases lastFull with
  | none => exact ⟨true, rfl⟩
  | some l =>
    obtain ⟨days, hdays⟩ := hlast l rfl
    obtain ⟨days', hdays'⟩ := hcurrent
    simp only [hdays, hdays']
    cases days <;> cases days' <;> exact ⟨_, rfl⟩

theorem planLoop_isOk {policy : SendPolicy} {src : SourceState} {snaps : List Timestamp}
    {st : PlanState} (hsnaps : ∀ s ∈ snaps, ReadableDate s)
    (hlast : ∀ l, st.lastFull = some l → ReadableDate l) :
    ∃ st', planLoop policy src snaps st = .ok st' := by
  induction snaps generalizing st with
  | nil => exact ⟨st, rfl⟩
  | cons snap snaps ih =>
    have hsnap := hsnaps snap (by simp)
    have hrest : ∀ s ∈ snaps, ReadableDate s := fun s hs => hsnaps s (List.mem_cons_of_mem _ hs)
    have hfull : ∀ l, (st.full snap).lastFull = some l → ReadableDate l := by
      rintro l hl
      exact Option.some.inj hl ▸ hsnap
    rw [planLoop_cons]
    by_cases hin : snap.raw ∈ st.destSet
    · rw [planSnapshot_skip hin]
      exact ih hrest hlast
    · cases hp : findParentCandidate snap st.destSet (srcNamesOf src) src with
      | none =>
        rw [planSnapshot_no_parent hin hp]
        exact ih hrest hfull
      | some p =>
        obtain ⟨b, hb⟩ := checkIntervalExceeded_isOk hlast hsnap policy.minFullSendInterval
        rw [planSnapshot_candidate hin hp, decideFull, hb]
        simp only [Except.map, Except.bind]
        split_ifs
        · exact ih hrest hfull
        · exact ih hrest hlast

theorem initialPlanState_isOk {archives : List VolumeArchive} (h : AcyclicParents archives) :
    ∃ st, initialPlanState archives = .ok st := by
  obtain ⟨cache, hcache⟩ := depthCacheOf_isOk h
  exact ⟨_, by rw [initialPlanState, hcache]; rfl⟩

/-- On acyclic metadata planning returns when all dates it may read can be sliced. -/
theorem buildPlan_isOk {src : SourceState} {dest : DestState} {policy : SendPolicy}
    (hacyclic : AcyclicParents dest.archives) (hsrc : ∀ s ∈ src.snapshots, ReadableDate s)
    (hdest : ∀ a ∈ dest.archives, ReadableDate a.timestamp) :
    ∃ plan, buildPlan src dest policy = .ok plan := by
  obtain ⟨st, hi⟩ := initialPlanState_isOk hacyclic
  have hlast : ∀ l, st.lastFull = some l → ReadableDate l := by
    intro l hl
    rw [(initialPlanState_ok hi).2.2.1] at hl
    obtain ⟨a, ha, _, rfl⟩ := lastFullOf_some hl
    exact hdest a ha
  obtain ⟨st', hl⟩ : ∃ st', planLoop policy src src.snapshots st = .ok st' :=
    planLoop_isOk hsrc hlast
  exact ⟨_, buildPlan_eq_ok.mpr ⟨st, st', hi, hl, rfl⟩⟩

/-- With everything archived a plan has no steps, and no date is read. -/
theorem buildPlan_archived {src : SourceState} {dest : DestState} (policy : SendPolicy)
    (hacyclic : AcyclicParents dest.archives)
    (h : ∀ s ∈ src.snapshots, s.raw ∈ raws dest.archives) :
    buildPlan src dest policy = .ok ⟨[]⟩ := by
  obtain ⟨st, hi⟩ := initialPlanState_isOk hacyclic
  obtain ⟨hset, _, _, hsteps⟩ := initialPlanState_ok hi
  have hl : planLoop policy src src.snapshots st = .ok st :=
    planLoop_skip fun s hs => hset ▸ List.mem_toFinset.mpr (h s hs)
  exact buildPlan_eq_ok.mpr ⟨st, st, hi, hl, by rw [hsteps]⟩

/-! ## What runs keep -/

theorem parentOf_addArchive (m : DestMeta) (a : VolumeArchive) (x p : String) :
    ParentOf (m.addArchive a).archives x p ↔
      ParentOf m.archives x p ∨ (x = a.raw ∧ a.parentTimestamp = some p) := by
  constructor
  · rintro ⟨b, hb, rfl, hp⟩
    rcases (DestMeta.mem_addArchive m a b).mp hb with rfl | hb
    · exact Or.inr ⟨rfl, hp⟩
    · exact Or.inl ⟨b, hb, rfl, hp⟩
  · rintro (⟨b, hb, rfl, hp⟩ | ⟨rfl, hp⟩)
    · exact ⟨b, (DestMeta.mem_addArchive m a b).mpr (Or.inr hb), rfl, hp⟩
    · exact ⟨a, (DestMeta.mem_addArchive m a a).mpr (Or.inl rfl), rfl, hp⟩

/-- No chain of recorded parents leads from a source snapshot to a later one that is not
archived. -/
def Grounded (src : SourceState) (archives : List VolumeArchive) : Prop :=
  ∀ s ∈ src.snapshots, ∀ p ∈ src.snapshots, s.raw ∉ raws archives → p < s →
    ¬ TransGen (ParentOf archives) p.raw s.raw

/-- Sending on an older parent closes no cycle, as no chain leads back to the snapshot. -/
theorem Grounded.step {tracked : Prop} {policy : SendPolicy} {src : SourceState}
    (hsrc : src.Parsed) {m : DestMeta} (hg : Grounded src m.archives)
    (ha : AcyclicParents m.archives) {step : RunStep}
    (hfits : Fits tracked policy src m.archives step) (chunks : List ChunkFilename) :
    AcyclicParents (m.addArchive (step.archive chunks)).archives ∧
      Grounded src (m.addArchive (step.archive chunks)).archives := by
  have hedge : ∀ x p, ParentOf (m.addArchive (step.archive chunks)).archives x p ↔
      ParentOf m.archives x p ∨ (x = step.snap.raw ∧ step.parentRaw = some p) :=
    parentOf_addArchive m _
  have hraws : ∀ name, name ∉ raws (m.addArchive (step.archive chunks)).archives →
      name ∉ raws m.archives := by
    intro name hname hmem
    obtain ⟨b, hb, rfl⟩ := mem_raws.mp hmem
    exact hname (mem_raws.mpr ⟨b, (DestMeta.mem_addArchive m _ b).mpr (Or.inr hb), rfl⟩)
  cases hp : step.parent with
  | none =>
    have hsame : ParentOf (m.addArchive (step.archive chunks)).archives =
        ParentOf m.archives := by
      funext x p
      simp [hedge, RunStep.parentRaw_eq, hp]
    rw [AcyclicParents, Grounded, hsame]
    exact ⟨ha, fun s hs p hps hnot hlt => hg s hs p hps (hraws _ hnot) hlt⟩
  | some q =>
    obtain ⟨hqsrc, hlt, hqmem⟩ := hfits.parent q hp
    have hedges : ParentOf (m.addArchive (step.archive chunks)).archives =
        fun x p => ParentOf m.archives x p ∨ (x = step.snap.raw ∧ p = q.raw) := by
      funext x p
      simp [hedge, RunStep.parentRaw_eq, hp, eq_comm]
    -- from the new parent no chain leads to a snapshot that is missing and later
    have hback : ∀ s ∈ src.snapshots, s.raw ∉ raws m.archives → q < s →
        ¬ ReflTransGen (ParentOf m.archives) q.raw s.raw := by
      intro s hs hnot hqs hchain
      rcases Relation.reflTransGen_iff_eq_or_transGen.mp hchain with heq | hchain
      · exact hnot (heq ▸ hqmem)
      · exact hg s hs q hqsrc hnot hqs hchain
    refine ⟨fun x hx => ?_, fun s hs p hps hnot hps' hchain => ?_⟩
    · rw [hedges] at hx
      rcases transGen_insert_edge hx with hx | ⟨hup, hdown⟩
      · exact ha x hx
      · exact hback _ hfits.snap_mem hfits.fresh hlt (hdown.trans hup)
    · have hnot' := hraws _ hnot
      rw [hedges] at hchain
      rcases transGen_insert_edge hchain with hchain | ⟨hup, hdown⟩
      · exact hg s hs p hps hnot' hps' hchain
      · rcases lt_or_ge q s with hqs | hsq
        · exact hback s hs hnot' hqs hdown
        · have hpstep : p < step.snap := hps'.trans_le (hsq.trans hlt.le)
          rcases Relation.reflTransGen_iff_eq_or_transGen.mp hup with heq | hup
          · exact absurd hpstep
              (((hsrc p hps).ext (hsrc _ hfits.snap_mem) heq.symm) ▸ lt_irrefl _)
          · exact hg _ hfits.snap_mem p hps hfits.fresh hpstep hup

/-- The archives have grown from those at the start without a new repetition, and they still
allow planning if those did. -/
structure Grows (src : SourceState) (start archives : List VolumeArchive) : Prop where
  count : ∀ name, (raws archives).count name ≤ max 1 ((raws start).count name)
  grounded : AcyclicParents start → Grounded src start →
    AcyclicParents archives ∧ Grounded src archives

theorem Grows.nil (src : SourceState) (start : List VolumeArchive) : Grows src start [] := by
  have hnone : ∀ x y, ¬ TransGen (ParentOf []) x y := by
    intro x y h
    cases h with
    | single h => simp [ParentOf] at h
    | tail _ h => simp [ParentOf] at h
  exact ⟨by simp [raws], fun _ _ => ⟨fun x => hnone x x, fun _ _ _ _ _ _ => hnone _ _⟩⟩

theorem Grows.step {tracked : Prop} {policy : SendPolicy} {src : SourceState}
    (hsrc : src.Parsed) {start : List VolumeArchive} {m : DestMeta}
    (h : Grows src start m.archives) {step : RunStep}
    (hfits : Fits tracked policy src m.archives step) (chunks : List ChunkFilename) :
    Grows src start (m.addArchive (step.archive chunks)).archives := by
  refine ⟨fun name => ?_, fun ha hg => ?_⟩
  · have hperm : (raws (m.addArchive (step.archive chunks)).archives).Perm
        (step.snap.raw :: raws m.archives) := (m.addArchive_perm _).map _
    rw [hperm.count_eq, List.count_cons]
    have hcount := h.count name
    by_cases hname : step.snap.raw = name
    · have hzero := List.count_eq_zero_of_not_mem hfits.fresh
      rw [hname] at hzero
      simp [hname, hzero]
    · simpa [hname] using hcount
  · obtain ⟨ha', hg'⟩ := h.grounded ha hg
    exact hg'.step hsrc ha' hfits chunks

/-- What was archived at some time stays archived. -/
def StaysArchived (start w : World) : Prop :=
  ∀ ctx : VolumeContext, SlashFree ctx.volume → Archived ctx start.store → Archived ctx w.store

section Runs

variable {H : IncrementalHash} {Z : StreamEncoder} {env : Env} {ctx : VolumeContext}

theorem staysArchived_observes (start : World) : Observes (StaysArchived start) := by
  intro w w' hs _ h
  rw [StaysArchived, hs]
  exact h

theorem keepsSteps_staysArchived (start : World) (hv : SlashFree ctx.volume)
    (hsnaps : ∀ s ∈ ctx.srcState.snapshots, SlashFree s.raw) :
    KeepsSteps False H Z env ctx (StaysArchived start) (StaysArchived start) := by
  have hsending : ∀ {step : RunStep} {stream : SendStream} {w w' : World},
      StaysArchived start w → step.snap ∈ ctx.srcState.snapshots →
      Sending env ctx step stream w w' → StaysArchived start w' := by
    intro step stream w w' hw hsnap hs ctx' hv' harch
    obtain ⟨m, hl, hall⟩ := hw ctx' hv' harch
    exact ⟨m, hl.congr (hs.frame.store.outside _
      (metaKey_not_partsOf hv' hv (hsnaps _ hsnap))), hall⟩
  refine .invariant False.elim (fun m step stream w w' hw _ hf hs => hsending hw hf.snap_mem hs) ?_
  intro m step stream chunks now w w₁ w' hw hl hf hs ht ctx' hv' harch
  obtain ⟨m₁, hl₁, hall⟩ := hsending hw hf.snap_mem hs.toSending ctx' hv' harch
  rcases ht.store with hst | hst
  · exact ⟨m₁, hst ▸ hl₁, hall⟩
  · by_cases hvv : ctx'.volume = ctx.volume
    · have hlm : Link ctx.volume m w₁.store := hl.congr (hs.frame.store.outside _
        (metaKey_not_partsOf hv hv (hsnaps _ hf.snap_mem)))
      have heq : m₁.archives = m.archives := Link.archives_eq (hvv ▸ hl₁) hlm
      refine ⟨m.after step chunks now, Or.inl ?_, fun s hsrc => ?_⟩
      · rw [hst, Persisted, hvv, update_self]
      · have hmem := hall s hsrc
        rw [heq] at hmem
        obtain ⟨b, hb, hbs⟩ := mem_raws.mp hmem
        exact mem_raws.mpr ⟨b, (DestMeta.mem_addArchive m _ b).mpr (Or.inr hb), hbs⟩
    · refine ⟨m₁, hl₁.congr ?_, hall⟩
      rw [hst, update_of_ne (fun hk => hvv (metaKey_inj hv' hv hk))]

/-- A run keeps what its steps keep of the metadata, and a run that returns has archived
everything on the volumes it visits. -/
theorem run_archives {G : String → List VolumeArchive → Prop} {i : Invocation} {w : World}
    (hnames : ∀ ctx, Visits i.env i.config ctx →
      SlashFree ctx.volume ∧ ∀ s ∈ ctx.srcState.snapshots, SlashFree s.raw)
    (hkeeps : ∀ ctx, Visits i.env i.config ctx →
      KeepsSteps False H Z i.env ctx (AlwaysMeta G) (AlwaysMeta G)) (hw : AlwaysMeta G w) :
    wp (i.run H Z)
      (fun _ w' => AlwaysMeta G w' ∧ ∀ ctx, Visits i.env i.config ctx →
        SlashFree ctx.volume → Archived ctx w'.store)
      (fun _ => AlwaysMeta G) w := by
  refine run_spec (J := fun ctx w => SlashFree ctx.volume → Archived ctx w.store)
    (alwaysMeta_observes G) (fun _ => id) i.name ?_ hw
  intro ctx hctx w₁ hw₁
  obtain ⟨hv, hsnaps⟩ := hnames ctx hctx
  have hobs : Observes fun w => AlwaysMeta G w ∧ StaysArchived w₁ w := fun w w' hs ht hw =>
    ⟨alwaysMeta_observes G w w' hs ht hw.1, staysArchived_observes w₁ w w' hs ht hw.2⟩
  refine wp_mono (runVolume_spec hobs ((hkeeps ctx hctx).and
    (keepsSteps_staysArchived w₁ hv hsnaps)) ⟨hw₁, fun _ _ h => h⟩) ?_ (fun _ _ he => he.1)
  rintro _ w₂ ⟨⟨hw₂, hstays⟩, harch⟩
  exact ⟨hw₂, fun _ => harch, fun ctx' hj hv' => hstays ctx' hv' (hj hv')⟩

end Runs

/-! ## Convergence -/

/-- Plans send what is missing, oldest first, and a run that succeeds leaves nothing to do. -/
theorem history_converges (H : IncrementalHash) (Z : StreamEncoder) (src : SourceState)
    (hparsed : src.Parsed) (runs : List Invocation) (last : Invocation) (store : Store)
    (volume : String) (hvolume : SlashFree volume)
    (hnames : ∀ i ∈ runs ++ [last], ∀ ctx, Visits i.env i.config ctx →
      SlashFree ctx.volume ∧ ∀ s ∈ ctx.srcState.snapshots, SlashFree s.raw)
    (hsrc : ∀ i ∈ runs ++ [last], ∀ ctx, Visits i.env i.config ctx →
      ctx.volume = volume → ctx.srcState = src)
    (hvisit : ∃ ctx, Visits last.env last.config ctx ∧ ctx.volume = volume) (w : World)
    (hlast : outcome (last.run H Z) (history H Z runs (World.start store)) = (.ok (), w)) :
    (∀ dest policy,
      (AcyclicParents dest.archives → (∀ s ∈ src.snapshots, ReadableDate s) →
        (∀ a ∈ dest.archives, ReadableDate a.timestamp) →
          ∃ plan, buildPlan src dest policy = .ok plan) ∧
      ∀ plan, buildPlan src dest policy = .ok plan →
        (plan.steps.map RunStep.snap).Pairwise (· < ·) ∧
          ∀ s, s ∈ plan.steps.map RunStep.snap ↔
            s ∈ src.snapshots ∧ s.raw ∉ raws dest.archives) ∧
    (∀ s ∈ src.snapshots, s.raw ∈ raws (destStateOn w.store volume).archives) ∧
    (∀ name, (raws (destStateOn w.store volume).archives).count name ≤
      max 1 ((raws (destStateOn store volume).archives).count name)) ∧
    (AcyclicParents (destStateOn store volume).archives →
      Grounded src (destStateOn store volume).archives →
        ∀ policy, buildPlan src (destStateOn w.store volume) policy = .ok ⟨[]⟩) := by
  let start := (destStateOn store volume).archives
  let G : String → List VolumeArchive → Prop := fun key archives =>
    key = metaKey volume → Grows src start archives
  have hkeeps : ∀ i ∈ runs ++ [last], ∀ ctx, Visits i.env i.config ctx →
      KeepsSteps False H Z i.env ctx (AlwaysMeta G) (AlwaysMeta G) := by
    intro i hi ctx hctx
    refine keepsSteps_alwaysMeta False False.elim (fun _ => Grows.nil src start) False.elim ?_
    intro m step chunks hm hfits hkey
    have hvv := metaKey_inj (hnames i hi ctx hctx).1 hvolume hkey
    exact (hm hkey).step hparsed ((hsrc i hi ctx hctx hvv) ▸ hfits) chunks
  have hhistory : AlwaysMeta G (history H Z runs (World.start store)) := by
    refine history_invariant (alwaysMeta_observes G) runs ?_ ⟨?_, by simp [World.start]⟩
    · intro i hi ctx hctx
      exact runVolume_preserves (alwaysMeta_observes G) (hkeeps i (by simp [hi]) ctx hctx)
    · intro v m hp hkey
      have hp' : Persisted store volume m := by
        rw [Persisted, ← hkey]
        exact hp
      have hstart : start = m.archives := Link.destStateOn_archives (Or.inl hp')
      rw [hstart]
      exact ⟨fun name => le_max_right _ _, fun ha hg => ⟨ha, hg⟩⟩
  obtain ⟨hw, harchived⟩ := wp_ok (run_archives (fun ctx hctx => hnames last (by simp) ctx hctx)
    (fun ctx hctx => hkeeps last (by simp) ctx hctx) hhistory) hlast
  obtain ⟨ctx, hctx, rfl⟩ := hvisit
  obtain ⟨m, hlink, hall⟩ := harchived ctx hctx hvolume
  rw [hsrc last (by simp) ctx hctx rfl] at hall
  have hdest := hlink.destStateOn_archives
  have hgrows : Grows src start m.archives := by
    rcases hlink with hp | ⟨-, hm⟩
    · exact hw.store _ m hp rfl
    · rw [hm]
      exact Grows.nil src start
  refine ⟨?_, by rwa [hdest], by rw [hdest]; exact hgrows.count, fun ha hg policy => ?_⟩
  · exact fun dest policy => ⟨buildPlan_isOk, fun plan hplan => buildPlan_exact hparsed hplan⟩
  · have hacyclic := (hgrows.grounded ha hg).1
    rw [← hdest] at hacyclic hall
    exact buildPlan_archived policy hacyclic hall

/-- What the library finds of a volume's metadata. -/
theorem destStateOn_through {normalizePath : String → String} (h : KeepsPlain normalizePath)
    {volume : String} (hv : PlainVolume volume) (w : World) :
    destStateOn (w.through normalizePath).store volume = destStateOn w.store volume := by
  unfold destStateOn
  rw [through_metaKey h hv]

/-- Plans send what is missing, oldest first, and a run that succeeds leaves nothing to do,
whatever the runs before it did: everything is archived, nothing twice that was not, and
the next plan is empty when the metadata was grounded at the start. All metadata is read
through a library that keeps plain paths, and volumes have plain names. -/
theorem run_converges (normalizePath : String → String) (hpath : KeepsPlain normalizePath)
    (H : IncrementalHash) (Z : StreamEncoder) (src : SourceState) (hparsed : src.Parsed)
    (runs : List Invocation) (last : Invocation) (store : Store) (volume : String)
    (hvolume : PlainVolume volume)
    (hnames : ∀ i ∈ runs ++ [last], ∀ ctx, Visits i.env i.config ctx →
      PlainVolume ctx.volume ∧ ∀ s ∈ ctx.srcState.snapshots, SlashFree s.raw)
    (hsrc : ∀ i ∈ runs ++ [last], ∀ ctx, Visits i.env i.config ctx →
      ctx.volume = volume → ctx.srcState = src)
    (hvisit : ∃ ctx, Visits last.env last.config ctx ∧ ctx.volume = volume) (w : World)
    (hlast : outcome (last.runAt normalizePath H Z)
      (historyAt normalizePath H Z runs (World.start store)) = (.ok (), w)) :
    let found := fun w : World => destStateOn (w.through normalizePath).store volume
    (∀ dest policy,
      (AcyclicParents dest.archives → (∀ s ∈ src.snapshots, ReadableDate s) →
        (∀ a ∈ dest.archives, ReadableDate a.timestamp) →
          ∃ plan, buildPlan src dest policy = .ok plan) ∧
      ∀ plan, buildPlan src dest policy = .ok plan →
        (plan.steps.map RunStep.snap).Pairwise (· < ·) ∧
          ∀ s, s ∈ plan.steps.map RunStep.snap ↔
            s ∈ src.snapshots ∧ s.raw ∉ raws dest.archives) ∧
    (∀ s ∈ src.snapshots, s.raw ∈ raws (found w).archives) ∧
    (∀ name, (raws (found w).archives).count name ≤
      max 1 ((raws (found (World.start store)).archives).count name)) ∧
    (AcyclicParents (found (World.start store)).archives →
      Grounded src (found (World.start store)).archives →
        ∀ policy, buildPlan src (found w) policy = .ok ⟨[]⟩) := by
  intro found
  have hfound : ∀ w, found w = destStateOn w.store volume := destStateOn_through hpath hvolume
  rw [hfound, hfound]
  have hbefore : historyAt normalizePath H Z runs (World.start store) =
      history H Z runs (World.start store) :=
    historyAt_plain hpath runs (fun i hi ctx hctx => (hnames i (by simp [hi]) ctx hctx).1) _
  have hrun : last.runAt normalizePath H Z = last.run H Z :=
    runAt_plain hpath last.name fun ctx hctx => (hnames last (by simp) ctx hctx).1
  rw [hbefore, hrun] at hlast
  refine history_converges H Z src hparsed runs last store volume hvolume.slashFree ?_ hsrc hvisit
    w hlast
  exact fun i hi ctx hctx => ⟨(hnames i hi ctx hctx).1.slashFree, (hnames i hi ctx hctx).2⟩

/-- A first run that fails, and a second one that sends what is left. -/
theorem run_converges_rerun :
    let encoder := StreamCodec.identity.toStreamEncoder
    let failed := (twoDays none).failingAt 16
    ∃ w, outcome ((twoDays none).runAt trimPath .keepAll encoder)
        (historyAt trimPath .keepAll encoder [failed] (World.start fun _ => none)) = (.ok (), w) ∧
      (outcome (failed.runAt trimPath .keepAll encoder) (World.start fun _ => none)).1.isOk =
        false ∧
      (∀ dest policy,
        (AcyclicParents dest.archives → (∀ s ∈ twoDaysSource.snapshots, ReadableDate s) →
          (∀ a ∈ dest.archives, ReadableDate a.timestamp) →
            ∃ plan, buildPlan twoDaysSource dest policy = .ok plan) ∧
        ∀ plan, buildPlan twoDaysSource dest policy = .ok plan →
          (plan.steps.map RunStep.snap).Pairwise (· < ·) ∧
            ∀ s, s ∈ plan.steps.map RunStep.snap ↔
              s ∈ twoDaysSource.snapshots ∧ s.raw ∉ raws dest.archives) ∧
      (∀ s ∈ twoDaysSource.snapshots,
        s.raw ∈ raws (destStateOn (w.through trimPath).store "root").archives) ∧
      (∀ name, (raws (destStateOn (w.through trimPath).store "root").archives).count name ≤
        max 1 ((raws (destStateOn ((World.start fun _ => none).through trimPath).store
          "root").archives).count name)) ∧
      (AcyclicParents (destStateOn ((World.start fun _ => none).through trimPath).store
          "root").archives →
        Grounded twoDaysSource (destStateOn ((World.start fun _ => none).through trimPath).store
          "root").archives →
          ∀ policy, buildPlan twoDaysSource (destStateOn (w.through trimPath).store "root")
            policy = .ok ⟨[]⟩) := by
  intro encoder failed
  obtain ⟨⟨⟩, w, hlast⟩ := exists_of_isOk (x := (twoDays none).runAt trimPath .keepAll encoder)
    (s := historyAt trimPath .keepAll encoder [failed] (World.start fun _ => none))
    (by decide +kernel)
  have hvisits := visits_failingAt (twoDays none) 16
  refine ⟨w, hlast, by decide +kernel, run_converges trimPath trimPath_keepsPlain .keepAll encoder
    twoDaysSource (by decide) [failed] (twoDays none) (fun _ => none) "root" (by decide) ?_ ?_ ?_
    w hlast⟩
  · intro i hi ctx hctx
    obtain ⟨-, -, hsnaps, -⟩ := twoDays_visits (hvisits i hi ctx hctx)
    have hroot := twoDays_volume (hvisits i hi ctx hctx)
    exact ⟨by rw [hroot]; decide, hsnaps⟩
  · exact fun i hi ctx hctx _ => (twoDays_visits (hvisits i hi ctx hctx)).2.2.2.2
  · exact ⟨⟨.localDir, 1, "root", twoDaysSource, ⟨⟨7⟩, none⟩⟩,
      ⟨_, _, rfl, rfl, by simp, by decide, rfl, rfl, rfl⟩, rfl⟩

/-! ## Missing parents and other names -/

def danglingSource : SourceState :=
  ⟨Series.new "root" [.plain "20230103", .plain "20230105"]⟩

/-- The second archive names a parent that is not archived. -/
def danglingMeta : DestMeta :=
  DestMeta.new 0 0 [⟨.plain "20230101", none, []⟩, ⟨.plain "20230103", some "20230105", []⟩]

def danglingStore : Store := update (fun _ => none) (metaKey "root") (some (.metadata danglingMeta))

def danglingRun : Invocation :=
  { twoDays none with
    env := { (twoDays none).env with inspectSource := .ok [("root", danglingSource)] } }

theorem danglingMeta_acyclic : AcyclicParents danglingMeta.archives := by
  have hedge : ∀ x y, ParentOf danglingMeta.archives x y → x = "20230103" ∧ y = "20230105" := by
    have hall : ∀ a ∈ danglingMeta.archives, ∀ p ∈ a.parentTimestamp,
        a.raw = "20230103" ∧ p = "20230105" := by decide
    rintro x y ⟨a, ha, rfl, hp⟩
    exact hall a ha y hp
  have hpath : ∀ x y, TransGen (ParentOf danglingMeta.archives) x y →
      x = "20230103" ∧ y = "20230105" := by
    intro x y h
    induction h with
    | single h => exact hedge x _ h
    | tail _ h ih => exact ⟨ih.1, (hedge _ _ h).2⟩
  intro x hx
  obtain ⟨rfl, h⟩ := hpath x x hx
  exact absurd h (by decide)

/-- A volume whose name begins with white space. -/
def spacedRun : Invocation :=
  { twoDays none with
    env := { (twoDays none).env with
      inspectSource := .ok [(" root", ⟨Series.new " root" [.plain "20230101"]⟩)] } }

/-- The missing parent is sent on the archive that names it, and the next plan never ends. And
a run that returns sends nothing at all where the library reads the metadata of a volume with
another name. -/
theorem runs_not_convergent :
    (danglingSource.Parsed ∧ AcyclicParents (destStateOn danglingStore "root").archives ∧
      (outcome (danglingRun.run IncrementalHash.keepAll StreamCodec.identity.toStreamEncoder)
        (World.start danglingStore)).1 = .ok () ∧
      buildPlan danglingSource (destStateOn (history IncrementalHash.keepAll
        StreamCodec.identity.toStreamEncoder [danglingRun] (World.start danglingStore)).store
          "root") ⟨⟨7⟩, none⟩ = .error .diverges) ∧
    KeepsPlain trimPath ∧
      (outcome (spacedRun.runAt trimPath IncrementalHash.keepAll
        StreamCodec.identity.toStreamEncoder) (World.start danglingStore)).1 = .ok () ∧
      (destStateOn (outcome (spacedRun.runAt trimPath IncrementalHash.keepAll
        StreamCodec.identity.toStreamEncoder) (World.start danglingStore)).2.store
          " root").archives = [] := by
  refine ⟨⟨by decide, ?_, by decide +kernel, by decide +kernel⟩, trimPath_keepsPlain,
    by decide +kernel, by decide +kernel⟩
  rw [destStateOn_persisted (m := danglingMeta) (by simp [Persisted, danglingStore])]
  exact danglingMeta_acyclic

end Bbkar
