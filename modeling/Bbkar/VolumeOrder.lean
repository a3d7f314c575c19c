import Bbkar.ParentWalks
import Bbkar.PlanDates
import Bbkar.VolumeLockstep

/-!
# The order of the volumes

What a run does with a volume is what it would do with it alone. Where every volume can be
planned, two runs that visit them in different orders therefore end alike. A volume that
cannot be planned stops the run, and then it matters which volumes came before.
-/
namespace Bbkar
open Relation Codec Effects Function

/-! ## Orders -/

/-- The same outside, at another time, with the volumes in another order. -/
def Env.visiting (env : Env) (clock : ℕ → ℕ) (states : List (String × SourceState)) : Env :=
  { env with clock := clock, inspectSource := .ok states }

/-- The totals that are printed when all volumes have been visited. -/
def totals (result : Except Halt Unit × World) : Option (ArchiveStats × ArchiveStats × ℕ) :=
  match result.1 with
  | .ok _ => some (result.2.sent, result.2.remote, result.2.totalBytesSent)
  | .error _ => none

/-- The same metadata up to the sync timestamps, the same part files and the same totals. -/
def SameResult (result result' : Except Halt Unit × World) : Prop :=
  (∀ key, contentsAt result'.2.store key = contentsAt result.2.store key) ∧
    totals result' = totals result

/-- Any two orders of the volumes lead to the same result. -/
def OrderIndependent (H : IncrementalHash) (Z : StreamEncoder) (env : Env) (config : Config)
    (name : Option String) (states : List (String × SourceState)) (store : Store) : Prop :=
  ∀ xs ys clock clock', xs.Perm states → ys.Perm states →
    SameResult (outcome (run H Z (env.visiting clock xs) config name) (World.start store))
      (outcome (run H Z (env.visiting clock' ys) config name) (World.start store))

/-- A run over one volume leaves every key of every other volume as it is. -/
def VolumesApart (H : IncrementalHash) (Z : StreamEncoder) (env : Env) (config : Config)
    (name : Option String) (states : List (String × SourceState)) : Prop :=
  ∀ ctx ∈ visited config name states, ∀ volume, SlashFree volume → volume ≠ ctx.volume →
    ∀ key, KeyOf volume key → ∀ w,
      (outcome (runVolume H Z env ctx) w).2.store key = w.store key

/-- The destination of the volume can be read, and its snapshots can be written. -/
structure VolumeSucceeds (H : IncrementalHash) (Z : StreamEncoder) (env : Env) (store : Store)
    (ctx : VolumeContext) : Prop where
  readable : Readable store ctx.volume
  writes : ∀ step : RunStep, step.snap ∈ ctx.srcState.snapshots →
    (∀ p, step.parent = some p → p ∈ ctx.srcState.snapshots) → StepSucceeds H Z env ctx step

/-- The source is a map from names without slashes, the destination can be read, no call
fails, and what the calls yield or take depends on their arguments only. -/
structure Succeeds (H : IncrementalHash) (Z : StreamEncoder) (env : Env) (config : Config)
    (name : Option String) (states : List (String × SourceState)) (store : Store) : Prop where
  names : (states.map Prod.fst).Nodup
  slashFree : ∀ state ∈ states, SlashFree state.1
  parsed : ∀ state ∈ states, state.2.Parsed
  answers : SameAnswers env env
  volumes : ∀ ctx ∈ visited config name states, VolumeSucceeds H Z env store ctx

/-- The recorded parents have no cycle, and the dates can be compared. -/
def Plannable (store : Store) (ctx : VolumeContext) : Prop :=
  (∀ x, ¬ TransGen (LastParent (destStateOn store ctx.volume).archives) x x) ∧
    DatesCompare ctx.srcState (destStateOn store ctx.volume)

/-- Every snapshot of the source is archived. -/
def UpToDate (store : Store) (ctx : VolumeContext) : Prop :=
  ∀ s ∈ ctx.srcState.snapshots, s.raw ∈ raws (destStateOn store ctx.volume).archives

theorem buildPlan_isOk_iff_plannable {store : Store} {ctx : VolumeContext}
    (hsrc : ctx.srcState.Parsed) :
    (∃ plan, buildPlan ctx.srcState (destStateOn store ctx.volume) ctx.sendPolicy = .ok plan) ↔
      Plannable store ctx := by
  constructor
  · rintro ⟨plan, hplan⟩
    obtain ⟨st, -, hi, -⟩ := buildPlan_eq_ok.mp hplan
    refine ⟨fun x hx => ?_, (buildPlan_isOk_iff_datesCompare hsrc hi).mp ⟨plan, hplan⟩⟩
    have hcycle : buildPlan ctx.srcState (destStateOn store ctx.volume) ctx.sendPolicy =
        .error .diverges := buildPlan_diverges_iff.mpr ⟨x, hx⟩
    rw [hplan] at hcycle
    cases hcycle
  · rintro ⟨hacyclic, hdates⟩
    obtain ⟨cache, hcache⟩ := depthCacheOf_isOk_of_acyclic hacyclic
    obtain ⟨st, hi⟩ : ∃ st, initialPlanState (destStateOn store ctx.volume).archives = .ok st := by
      rw [initialPlanState, hcache]
      exact ⟨_, rfl⟩
    exact (buildPlan_isOk_iff_datesCompare hsrc hi).mpr hdates

theorem buildPlan_upToDate {store : Store} {ctx : VolumeContext} (hsrc : ctx.srcState.Parsed)
    (hp : Plannable store ctx) (hup : UpToDate store ctx) :
    buildPlan ctx.srcState (destStateOn store ctx.volume) ctx.sendPolicy = .ok ⟨[]⟩ := by
  obtain ⟨⟨steps⟩, hplan⟩ := (buildPlan_isOk_iff_plannable hsrc).mpr hp
  cases steps with
  | nil => exact hplan
  | cons step steps =>
    have hexact := (buildPlan_exact hsrc hplan).2 step.snap
    obtain ⟨hmem, hnew⟩ := hexact.mp (by simp)
    exact absurd (hup _ hmem) hnew

/-! ## One volume after others -/

section Visits

variable {H : IncrementalHash} {Z : StreamEncoder} {env env' : Env} {ctx : VolumeContext}
  {ctxs : List VolumeContext} {store : Store}

/-- What the run over the volume alone leads to. -/
def alone (H : IncrementalHash) (Z : StreamEncoder) (env : Env) (store : Store)
    (ctx : VolumeContext) : World :=
  (outcome (runVolume H Z env ctx) (World.start store)).2

/-- The volume has not been visited yet. -/
def Untouched (store : Store) (ctx : VolumeContext) (w : World) : Prop :=
  ∀ key, KeyOf ctx.volume key → w.store key = store key

/-- The volume has been visited, with the result that it has alone. -/
def Done (H : IncrementalHash) (Z : StreamEncoder) (env : Env) (store : Store)
    (ctx : VolumeContext) (w : World) : Prop :=
  ∀ key, KeyOf ctx.volume key → contentsAt w.store key =
    contentsAt (alone H Z env store ctx).store key

theorem Untouched.destStateOn_eq {w : World} (h : Untouched store ctx w) :
    destStateOn w.store ctx.volume = destStateOn store ctx.volume := by
  unfold destStateOn
  rw [h _ (keyOf_metaKey _)]

theorem Untouched.readable {w : World} (h : Untouched store ctx w)
    (hr : Readable store ctx.volume) : Readable w.store ctx.volume := by
  intro bytes
  rw [h _ (keyOf_metaKey _)]
  exact hr bytes

variable (H Z env) in
/-- Another volume does not touch it. -/
theorem Untouched.other {w : World} (h : Untouched store ctx w) {ctx' : VolumeContext}
    (hv : SlashFree ctx.volume) (hv' : SlashFree ctx'.volume) (hne : ctx.volume ≠ ctx'.volume) :
    Untouched store ctx (outcome (runVolume H Z env ctx') w).2 := by
  intro key hkey
  rw [runVolume_other H Z env hv' hv hne hkey, h key hkey]

/-- Other calls of the same kind succeed as well. -/
theorem StepSucceeds.congr (ha : SameAnswers env env') {step : RunStep}
    (h : StepSucceeds H Z env ctx step) : StepSucceeds H Z env' ctx step := by
  intro stream hy w
  have hy' : Yields env ctx.volume step stream := by
    cases step with
    | sendFull snap =>
      obtain ⟨n, rfl⟩ := hy
      exact ⟨0, ha.full 0 n _⟩
    | sendIncremental snap parent =>
      obtain ⟨n, rfl⟩ := hy
      exact ⟨0, ha.incremental 0 n _ _⟩
  obtain ⟨a, t, hret⟩ := exists_of_isOk (h stream hy' w)
  have hbegin : OneVolume ctx.volume w w w w := .begin fun _ _ => rfl
  rcases (lockstep_writeSubvolume ha ctx.backend step.snap.raw ctx.maxBackupChunkSize stream
    (h stream hy')).cases hbegin with
    ⟨a, a', s, s', -, hy, -⟩ | ⟨e, s, s', hx, -⟩
  · rw [hy]
    rfl
  · rw [hret] at hx
    cases hx

/-- A plan for the volume is carried out. -/
theorem VolumeSucceeds.returns (hs : VolumeSucceeds H Z env store ctx)
    (hfault : ∀ n, env.fault n = none) {plan : RunPlan}
    (hplan : buildPlan ctx.srcState (destStateOn store ctx.volume) ctx.sendPolicy = .ok plan)
    {w : World} (hw : Untouched store ctx w) :
    wp (runVolume H Z env ctx) (fun _ _ => True) (fun _ _ => False) w := by
  refine runVolume_returns hfault (hw.readable hs.readable) (hw.destStateOn_eq ▸ hplan) ?_
  intro step hstep
  have hremaining : Remaining False ctx.sendPolicy ctx.srcState
      (destStateOn store ctx.volume).archives plan.steps := .of_buildPlan hplan False.elim
  have hrest := hremaining.mem_snapshots step hstep
  exact hs.writes step hrest.1 hrest.2

/-- The volume ends as it does alone, and adds to the totals what it adds alone. -/
theorem visit_alone (ha : SameAnswers env env') (hs : VolumeSucceeds H Z env store ctx)
    {plan : RunPlan}
    (hplan : buildPlan ctx.srcState (destStateOn store ctx.volume) ctx.sendPolicy = .ok plan)
    {w : World} (hw : Untouched store ctx w) :
    wp (runVolume H Z env' ctx)
      (fun _ w' => Done H Z env store ctx w' ∧
        w'.sent = (alone H Z env store ctx).sent + w.sent ∧
        w'.remote = (alone H Z env store ctx).remote + w.remote ∧
        w'.totalBytesSent = (alone H Z env store ctx).totalBytesSent + w.totalBytesSent)
      (fun _ _ => False) w := by
  have hbegin : OneVolume ctx.volume (World.start store) w (World.start store) w :=
    .begin fun key hkey => by rw [contentsAt, hw key hkey]; rfl
  obtain ⟨u, r, hr, -⟩ := exists_of_wp (hs.returns ha.noFault hplan (w := World.start store)
    fun _ _ => rfl)
  rcases (lockstep_runVolume ha hs.writes).cases hbegin with
    ⟨a, a', s, s', hx, hy, -, hstep⟩ | ⟨e, s, s', hx, -⟩
  · refine (wp_of_ok hy).mpr ?_
    unfold Done alone
    rw [hx]
    exact ⟨hstep.objects, (add_zero _).symm.trans hstep.sent,
      (add_zero _).symm.trans hstep.remote, hstep.totalBytesSent⟩
  · rw [hr] at hx
    cases hx

/-- What visiting the volumes has led to: each is done, and the rest is as before. -/
structure AllDone (H : IncrementalHash) (Z : StreamEncoder) (env : Env) (store : Store)
    (ctxs : List VolumeContext) (w w' : World) : Prop where
  done : ∀ ctx ∈ ctxs, Done H Z env store ctx w'
  others : ∀ key, (∀ ctx ∈ ctxs, ¬ KeyOf ctx.volume key) → w'.store key = w.store key
  sent : w'.sent = (ctxs.map fun ctx => (alone H Z env store ctx).sent).sum + w.sent
  remote : w'.remote = (ctxs.map fun ctx => (alone H Z env store ctx).remote).sum + w.remote
  totalBytesSent : w'.totalBytesSent =
    (ctxs.map fun ctx => (alone H Z env store ctx).totalBytesSent).sum + w.totalBytesSent

theorem visit_all (ha : SameAnswers env env')
    (hnames : (ctxs.map VolumeContext.volume).Nodup) (hslash : ∀ ctx ∈ ctxs, SlashFree ctx.volume)
    (hs : ∀ ctx ∈ ctxs, VolumeSucceeds H Z env store ctx)
    (hplan : ∀ ctx ∈ ctxs, ∃ plan,
      buildPlan ctx.srcState (destStateOn store ctx.volume) ctx.sendPolicy = .ok plan)
    {w : World} (hw : ∀ ctx ∈ ctxs, Untouched store ctx w) :
    wp (ctxs.forM (runVolume H Z env')) (fun _ w' => AllDone H Z env store ctxs w w')
      (fun _ _ => False) w := by
  induction ctxs generalizing w with
  | nil => exact ⟨by simp, fun _ _ => rfl, by simp, by simp, by simp⟩
  | cons ctx rest ih =>
    have htail : ∀ ctx' ∈ rest, ctx' ∈ ctx :: rest := fun ctx' h => List.mem_cons_of_mem _ h
    obtain ⟨hhead, hrestnames⟩ := List.nodup_cons.mp hnames
    have hne : ∀ ctx' ∈ rest, ctx'.volume ≠ ctx.volume := by
      intro ctx' hctx' heq
      exact hhead (heq ▸ List.mem_map_of_mem hctx')
    obtain ⟨plan, hp⟩ := hplan ctx (by simp)
    obtain ⟨u, w₁, hout, hdone, hsent, hremote, htotal⟩ :=
      exists_of_wp (visit_alone ha (hs ctx (by simp)) hp (hw ctx (by simp)))
    have hother : ∀ key, ¬ KeyOf ctx.volume key → w₁.store key = w.store key := by
      have h := runVolume_hasOthers H Z env' ctx w
      rwa [hout] at h
    rw [wp_forM_cons, wp_of_ok hout]
    have hw₁ : ∀ ctx' ∈ rest, Untouched store ctx' w₁ := by
      intro ctx' hctx'
      have h := (hw ctx' (htail ctx' hctx')).other H Z env'
        (hslash ctx' (htail ctx' hctx')) (hslash ctx (by simp)) (hne ctx' hctx')
      rwa [hout] at h
    refine wp_mono_ok (ih hrestnames (fun c hc => hslash c (htail c hc))
      (fun c hc => hs c (htail c hc)) (fun c hc => hplan c (htail c hc)) hw₁) ?_
    rintro _ w' hrest
    refine ⟨fun ctx' hctx' key hkey => ?_, fun key hkey => ?_, ?_, ?_, ?_⟩
    · rcases List.mem_cons.mp hctx' with rfl | hctx'
      · -- the volumes after this one have other keys
        rw [← hdone key hkey, contentsAt, hrest.others key, contentsAt]
        intro c hc hkey'
        exact hne c hc (hkey'.unique (hslash c (htail c hc)) (hslash _ (by simp)) hkey)
      · exact hrest.done ctx' hctx' key hkey
    · rw [hrest.others key fun c hc => hkey c (htail c hc), hother key (hkey ctx (by simp))]
    · rw [hrest.sent, hsent, List.map_cons, List.sum_cons, add_left_comm, add_assoc]
    · rw [hrest.remote, hremote, List.map_cons, List.sum_cons, add_left_comm, add_assoc]
    · rw [hrest.totalBytesSent, htotal, List.map_cons, List.sum_cons, add_left_comm, add_assoc]

/-- A volume that cannot be planned stops the run before anything of it is changed. -/
theorem visit_stops (hfault : ∀ n, env.fault n = none) (hsrc : ctx.srcState.Parsed)
    (hr : Readable store ctx.volume) (hp : ¬ Plannable store ctx) {w : World}
    (hw : Untouched store ctx w) :
    wp (runVolume H Z env ctx) (fun _ _ => False) (fun _ w' => w'.store = w.store) w := by
  cases hplan : buildPlan ctx.srcState (destStateOn store ctx.volume) ctx.sendPolicy with
  | ok plan => exact absurd ((buildPlan_isOk_iff_plannable hsrc).mp ⟨plan, hplan⟩) hp
  | error e => exact runVolume_planError hfault (hw.readable hr) (hw.destStateOn_eq ▸ hplan)

/-- Where only volumes that are up to date can be planned, nothing is ever changed. -/
theorem visit_none (hfault : ∀ n, env.fault n = none)
    (hsrc : ∀ ctx ∈ ctxs, ctx.srcState.Parsed) (hr : ∀ ctx ∈ ctxs, Readable store ctx.volume)
    (hup : ∀ ctx ∈ ctxs, Plannable store ctx → UpToDate store ctx)
    (hstop : ∃ ctx ∈ ctxs, ¬ Plannable store ctx) {w : World} (hw : w.store = store) :
    wp (ctxs.forM (runVolume H Z env)) (fun _ _ => False) (fun _ w' => w'.store = store) w := by
  induction ctxs generalizing w with
  | nil => simp at hstop
  | cons ctx rest ih =>
    have htail : ∀ ctx' ∈ rest, ctx' ∈ ctx :: rest := fun ctx' h => List.mem_cons_of_mem _ h
    have hun : Untouched store ctx w := fun _ _ => by rw [hw]
    rw [wp_forM_cons]
    by_cases hp : Plannable store ctx
    · have hplan := buildPlan_upToDate (hsrc ctx (by simp)) hp (hup ctx (by simp) hp)
      refine wp_mono (runVolume_upToDate hfault (hun.readable (hr ctx (by simp)))
        (hun.destStateOn_eq ▸ hplan)) (fun _ w₁ hw₁ => ?_) (fun _ _ he => he.elim)
      refine ih (fun c hc => hsrc c (htail c hc)) (fun c hc => hr c (htail c hc))
        (fun c hc => hup c (htail c hc)) ?_ (hw₁.trans hw)
      obtain ⟨c, hc, hnot⟩ := hstop
      rcases List.mem_cons.mp hc with rfl | hc
      · exact absurd hp hnot
      · exact ⟨c, hc, hnot⟩
    · refine wp_mono (visit_stops hfault (hsrc ctx (by simp)) (hr ctx (by simp)) hp hun)
        (fun _ _ hq => hq.elim) (fun _ w' he => he.trans hw)

/-- When the snapshots of the volume are archived, they are so by its metadata. -/
theorem Archived.upToDate (h : Archived ctx store) : UpToDate store ctx := by
  obtain ⟨m, hlink, hall⟩ := h
  intro s hs
  rw [hlink.destStateOn_archives]
  exact hall s hs

theorem UpToDate.congr {store' : Store} (h : UpToDate store' ctx)
    (hsame : contentsAt store' (metaKey ctx.volume) = contentsAt store (metaKey ctx.volume)) :
    UpToDate store ctx := by
  intro s hs
  rw [destStateOn_archives, ← hsame, ← destStateOn_archives]
  exact h s hs

/-- A volume that can be planned is up to date when the run has gone over it. -/
theorem visit_upToDate (hs : VolumeSucceeds H Z env store ctx) (hfault : ∀ n, env.fault n = none)
    (hsrc : ctx.srcState.Parsed) (hp : Plannable store ctx) {w : World}
    (hw : Untouched store ctx w) :
    wp (runVolume H Z env ctx) (fun _ w' => UpToDate w'.store ctx) (fun _ _ => False) w := by
  obtain ⟨plan, hplan⟩ := (buildPlan_isOk_iff_plannable hsrc).mpr hp
  obtain ⟨u, w', hout, -⟩ := exists_of_wp (hs.returns hfault hplan hw)
  have harchived := wp_ok (runVolume_spec (E := fun _ => True)
    (hasOthers_observes ctx.volume w.store)
    { (keepsSteps_hasOthers w.store : KeepsSteps False H Z env ctx _ _) with
      error := fun _ _ => trivial
      sending := fun _ _ _ _ _ _ _ _ _ => trivial
      tried := fun _ _ _ _ _ _ _ _ _ _ _ _ _ => trivial } (fun _ _ => rfl)) hout
  exact (wp_of_ok hout).mpr harchived.2.upToDate

end Visits

/-! ## Runs in different orders -/

section Runs

variable {H : IncrementalHash} {Z : StreamEncoder} {env : Env} {config : Config}
  {name : Option String} {states xs : List (String × SourceState)} {store : Store}

namespace Succeeds

theorem visiting (h : Succeeds H Z env config name states store) (clock : ℕ → ℕ)
    (xs : List (String × SourceState)) : SameAnswers env (env.visiting clock xs) :=
  ⟨⟨h.answers.full, h.answers.incremental⟩, h.answers.noFault, h.answers.noFault,
    h.answers.accept⟩

theorem parsed_visited (h : Succeeds H Z env config name states store) {ctx : VolumeContext}
    (hctx : ctx ∈ visited config name states) : ctx.srcState.Parsed := by
  obtain ⟨state, hstate, rfl, -⟩ := mem_visited hctx
  exact h.parsed _ hstate

theorem slashFree_visited (h : Succeeds H Z env config name states store) {ctx : VolumeContext}
    (hctx : ctx ∈ visited config name states) : SlashFree ctx.volume := by
  obtain ⟨state, hstate, rfl, -⟩ := mem_visited hctx
  exact h.slashFree _ hstate

/-- At another time and in another order the volume can be written as well. -/
theorem volume (h : Succeeds H Z env config name states store) {ctx : VolumeContext}
    (hctx : ctx ∈ visited config name states) (clock : ℕ → ℕ)
    (xs : List (String × SourceState)) :
    VolumeSucceeds H Z (env.visiting clock xs) store ctx :=
  ⟨(h.volumes ctx hctx).readable, fun step hsnap hparent =>
    ((h.volumes ctx hctx).writes step hsnap hparent).congr (h.visiting clock xs)⟩

variable {sync : SyncSpec}

theorem run_allDone (h : Succeeds H Z env config name states store) (clock : ℕ → ℕ)
    (hsync : config.sync = some sync) (hname : name.all (· == sync.name) = true)
    (hp : ∀ ctx ∈ visited config name states, Plannable store ctx) (hxs : xs.Perm states) :
    wp (run H Z (env.visiting clock xs) config name)
      (fun _ w' => AllDone H Z env store (visited config name xs) (World.start store).fresh w')
      (fun _ _ => False) (World.start store) := by
  have hmem : ∀ ctx ∈ visited config name xs, ctx ∈ visited config name states :=
    fun ctx hctx => (visited_perm config name hxs).mem_iff.mp hctx
  rw [wp_run_visited hsync hname (h.visiting clock xs).noFault' rfl]
  refine visit_all (h.visiting clock xs) ?_ (fun ctx hctx => h.slashFree_visited (hmem ctx hctx))
    (fun ctx hctx => h.volumes ctx (hmem ctx hctx)) (fun ctx hctx => ?_) (fun _ _ _ _ => rfl)
  · exact visited_volumes_nodup config name ((hxs.map _).nodup_iff.mpr h.names)
  · exact (buildPlan_isOk_iff_plannable (h.parsed_visited (hmem ctx hctx))).mpr
      (hp ctx (hmem ctx hctx))

theorem run_none (h : Succeeds H Z env config name states store) (clock : ℕ → ℕ)
    (hsync : config.sync = some sync) (hname : name.all (· == sync.name) = true)
    (hup : ∀ ctx ∈ visited config name states, Plannable store ctx → UpToDate store ctx)
    (hstop : ∃ ctx ∈ visited config name states, ¬ Plannable store ctx) (hxs : xs.Perm states) :
    wp (run H Z (env.visiting clock xs) config name) (fun _ _ => False)
      (fun _ w' => w'.store = store) (World.start store) := by
  have hmem : ∀ ctx, ctx ∈ visited config name xs ↔ ctx ∈ visited config name states :=
    fun ctx => (visited_perm config name hxs).mem_iff
  rw [wp_run_visited hsync hname (h.visiting clock xs).noFault' rfl]
  refine visit_none (h.visiting clock xs).noFault'
    (fun ctx hctx => h.parsed_visited ((hmem ctx).mp hctx))
    (fun ctx hctx => (h.volumes ctx ((hmem ctx).mp hctx)).readable)
    (fun ctx hctx => hup ctx ((hmem ctx).mp hctx)) ?_ rfl
  obtain ⟨ctx, hctx, hnot⟩ := hstop
  exact ⟨ctx, (hmem ctx).mpr hctx, hnot⟩

/-- Two orders in which every volume is done end alike. -/
theorem sameResult_of_allDone {xs ys : List (String × SourceState)} (hxy : xs.Perm ys)
    {w w' : World} {u u' : Unit}
    (hw : AllDone H Z env store (visited config name xs) (World.start store).fresh w)
    (hw' : AllDone H Z env store (visited config name ys) (World.start store).fresh w') :
    SameResult (.ok u, w) (.ok u', w') := by
  have hperm : (visited config name ys).Perm (visited config name xs) :=
    visited_perm config name hxy.symm
  refine ⟨fun key => ?_, ?_⟩
  · by_cases hkey : ∃ ctx ∈ visited config name xs, KeyOf ctx.volume key
    · obtain ⟨ctx, hctx, hkey⟩ := hkey
      rw [hw.done ctx hctx key hkey, hw'.done ctx (hperm.mem_iff.mpr hctx) key hkey]
    · have hnot : ∀ ctx ∈ visited config name xs, ¬ KeyOf ctx.volume key :=
        fun ctx hctx hk => hkey ⟨ctx, hctx, hk⟩
      rw [contentsAt, contentsAt, hw.others key hnot,
        hw'.others key fun ctx hctx => hnot ctx (hperm.mem_iff.mp hctx)]
  · have hsent : w'.sent = w.sent := by
      rw [hw.sent, hw'.sent, (hperm.map _).sum_eq]
    have hremote : w'.remote = w.remote := by
      rw [hw.remote, hw'.remote, (hperm.map _).sum_eq]
    have htotal : w'.totalBytesSent = w.totalBytesSent := by
      rw [hw.totalBytesSent, hw'.totalBytesSent, (hperm.map _).sum_eq]
    simp only [totals, hsent, hremote, htotal]

/-- When a volume that cannot be planned comes first, nothing happens. -/
theorem run_stops_first (h : Succeeds H Z env config name states store) (clock : ℕ → ℕ)
    {f : VolumeContext}
    (hf : f ∈ visited config name states) (hstop : ¬ Plannable store f)
    {others : List VolumeContext} (hxs : visited config name xs = f :: others) :
    wp (run H Z (env.visiting clock xs) config name) (fun _ _ => False)
      (fun _ w' => w'.store = store) (World.start store) := by
  obtain ⟨sync, hsync, hname⟩ := selected_of_visited hf
  have hfault := (h.visiting clock xs).noFault'
  rw [wp_run_visited hsync hname hfault rfl, hxs, wp_forM_cons]
  exact wp_mono_ok (visit_stops hfault (h.parsed_visited hf) (h.volumes f hf).readable hstop
    fun _ _ => rfl) (fun _ _ hq => hq.elim)

/-- When it comes second, the first volume has been sent before the run stops. -/
theorem run_stops_second (h : Succeeds H Z env config name states store) (clock : ℕ → ℕ)
    {f g : VolumeContext}
    (hf : f ∈ visited config name states) (hg : g ∈ visited config name states)
    (hvolume : f.volume ≠ g.volume) (hstop : ¬ Plannable store f) (hp : Plannable store g)
    {others : List VolumeContext} (hxs : visited config name xs = g :: f :: others) :
    wp (run H Z (env.visiting clock xs) config name) (fun _ _ => False)
      (fun _ w' => UpToDate w'.store g) (World.start store) := by
  obtain ⟨sync, hsync, hname⟩ := selected_of_visited hf
  have hfault := (h.visiting clock xs).noFault'
  have hstart : ∀ ctx, Untouched store ctx (World.start store).fresh := fun _ _ _ => rfl
  obtain ⟨u, w₁, hout, hup⟩ := exists_of_wp (visit_upToDate (h.volume hg clock xs) hfault
    (h.parsed_visited hg) hp (hstart g))
  have huntouched : Untouched store f w₁ := by
    have hother := (hstart f).other H Z (env.visiting clock xs) (h.slashFree_visited hf)
      (h.slashFree_visited hg) hvolume
    rwa [hout] at hother
  rw [wp_run_visited hsync hname hfault rfl, hxs, wp_forM_cons, wp_of_ok hout, wp_forM_cons]
  exact wp_mono (visit_stops hfault (h.parsed_visited hf) (h.volumes f hf).readable hstop
    huntouched) (fun _ _ hq => hq.elim) (fun _ w' he => he ▸ hup)

/-- A volume that stops the run, visited before and after one that has something to send,
makes a difference. -/
theorem orders_differ (h : Succeeds H Z env config name states store) {f g : VolumeContext}
    (hf : f ∈ visited config name states) (hg : g ∈ visited config name states)
    (hstop : ¬ Plannable store f) (hp : Plannable store g) (hup : ¬ UpToDate store g) :
    ¬ OrderIndependent H Z env config name states store := by
  intro hind
  obtain ⟨sf, hsf, hfstate, hfvisit⟩ := mem_visited hf
  obtain ⟨sg, hsg, hgstate, hgvisit⟩ := mem_visited hg
  have hne : sg ≠ sf := by
    rintro rfl
    rw [hfvisit, List.singleton_inj] at hgvisit
    exact hstop (hgvisit ▸ hp)
  have hvolume : f.volume ≠ g.volume := by
    intro heq
    refine hne (List.inj_on_of_nodup_map h.names hsg hsf ?_)
    rw [← hfstate, ← hgstate]
    exact heq.symm
  obtain ⟨rest, hrest⟩ : ∃ rest, (sf :: sg :: rest).Perm states := by
    classical
    refine ⟨(states.erase sf).erase sg, ?_⟩
    exact ((List.perm_cons_erase hsf).trans
      ((List.perm_cons_erase ((List.mem_erase_of_ne hne).mpr hsg)).cons sf)).symm
  have hfirst : visited config name (sf :: sg :: rest) = f :: g :: visited config name rest := by
    rw [visited_cons, visited_cons config name sg, hfvisit, hgvisit]
    rfl
  have hsecond : visited config name (sg :: sf :: rest) = g :: f :: visited config name rest := by
    rw [visited_cons, visited_cons config name sf, hfvisit, hgvisit]
    rfl
  obtain ⟨e, w, hxout, hwstore⟩ := exists_of_wp_error (h.run_stops_first id hf hstop hfirst)
  obtain ⟨e', w', hyout, hw'up⟩ :=
    exists_of_wp_error (h.run_stops_second id hf hg hvolume hstop hp hsecond)
  have hsame := (hind (sf :: sg :: rest) (sg :: sf :: rest) id id hrest
    ((List.Perm.swap sf sg rest).trans hrest)).1 (metaKey g.volume)
  rw [hxout, hyout, hwstore] at hsame
  exact hup (hw'up.congr hsame)

end Succeeds

end Runs

/-- With calls that succeed, the order of the volumes does not matter exactly when every
volume can be planned, or those that can be planned have nothing to send. Volumes are kept
apart in any case. -/
theorem orderIndependent_iff (H : IncrementalHash) (Z : StreamEncoder) (env : Env)
    (config : Config) (name : Option String) (states : List (String × SourceState))
    (store : Store) (h : Succeeds H Z env config name states store) :
    (OrderIndependent H Z env config name states store ∧
        VolumesApart H Z env config name states) ↔
      (∀ ctx ∈ visited config name states, Plannable store ctx) ∨
        ∀ ctx ∈ visited config name states, Plannable store ctx → UpToDate store ctx := by
  constructor
  · rintro ⟨hind, -⟩
    by_contra hnot
    rw [not_or] at hnot
    obtain ⟨hstop, hup⟩ := hnot
    push Not at hstop hup
    obtain ⟨f, hf, hstop⟩ := hstop
    obtain ⟨g, hg, hp, hup⟩ := hup
    exact h.orders_differ hf hg hstop hp hup hind
  · intro hcond
    refine ⟨?_, ?_⟩
    · intro xs ys clock clock' hxs hys
      rcases selected_or_unvisited config name with ⟨sync, hsync, hname⟩ | hunsel
      · by_cases hall : ∀ ctx ∈ visited config name states, Plannable store ctx
        · obtain ⟨u, w, hx, hw⟩ := exists_of_wp (h.run_allDone clock hsync hname hall hxs)
          obtain ⟨u', w', hy, hw'⟩ :=
            exists_of_wp (h.run_allDone clock' hsync hname hall hys)
          rw [hx, hy]
          exact Succeeds.sameResult_of_allDone (hxs.trans hys.symm) hw hw'
        · have hup := hcond.resolve_left hall
          have hstop : ∃ ctx ∈ visited config name states, ¬ Plannable store ctx := by
            push Not at hall
            exact hall
          obtain ⟨e, w, hx, hw⟩ :=
            exists_of_wp_error (h.run_none clock hsync hname hup hstop hxs)
          obtain ⟨e', w', hy, hw'⟩ :=
            exists_of_wp_error (h.run_none clock' hsync hname hup hstop hys)
          rw [hx, hy]
          exact ⟨fun key => by rw [hw, hw'], rfl⟩
      · obtain ⟨r, hr⟩ := run_unvisited (H := H) (Z := Z) hunsel
        rw [hr, hr]
        exact ⟨fun _ => rfl, rfl⟩
    · intro ctx hctx volume hvolume hne key hkey w
      exact runVolume_other H Z env (h.slashFree_visited hctx) hvolume hne hkey w

/-! ## Two volumes -/

def weeklyConfig : Config := ⟨.localDir, 1, some ⟨"weekly", ["*"], ⟨⟨7⟩, some 30⟩⟩⟩

/-- Every send gives the same stream, and no call fails. -/
def Env.sending (stream : SendStream) : Env :=
  { Env.calm with
    readSubvolumeFull := fun _ _ => stream
    readSubvolumeIncremental := fun _ _ _ => stream }

theorem sending_succeeds {stream : SendStream}
    (hok : ∀ backend v s mib w, (outcome (writeSubvolume .keepAll
      StreamCodec.identity.toStreamEncoder (Env.sending stream) backend v s mib stream)
      w).1.isOk = true) {states : List (String × SourceState)}
    (hnames : (states.map Prod.fst).Nodup) (hslash : ∀ state ∈ states, SlashFree state.1)
    (hparsed : ∀ state ∈ states, state.2.Parsed) :
    Succeeds .keepAll StreamCodec.identity.toStreamEncoder (Env.sending stream) weeklyConfig none
      states (fun _ => none) := by
  refine ⟨hnames, hslash, hparsed,
    ⟨⟨fun _ _ _ => rfl, fun _ _ _ _ => rfl⟩, fun _ => rfl, fun _ => rfl, fun _ _ => rfl⟩, ?_⟩
  intro ctx hctx
  refine ⟨fun _ => by simp, fun step _ _ sent hy w => ?_⟩
  have hstream : sent = stream := by
    cases step with
    | sendFull snap => exact hy.choose_spec
    | sendIncremental snap parent => exact hy.choose_spec
  rw [hstream]
  exact hok _ _ _ _ w

def plainSource (name : String) : SourceState := ⟨Series.new name [.plain "20230101"]⟩

/-- Two volumes with one snapshot each. -/
def plainStates : List (String × SourceState) :=
  [("home", plainSource "home"), ("root", plainSource "root")]

def oneByte : SendStream := [.ok (.stdoutBytes [1] 0), .ok (.processExit 0 "")]

theorem orderIndependent_iff_plain :
    OrderIndependent .keepAll StreamCodec.identity.toStreamEncoder (Env.sending oneByte)
        weeklyConfig none plainStates (fun _ => none) ∧
      VolumesApart .keepAll StreamCodec.identity.toStreamEncoder (Env.sending oneByte)
        weeklyConfig none plainStates := by
  have hwrite : ∀ backend v s mib w, (outcome (writeSubvolume .keepAll
      StreamCodec.identity.toStreamEncoder (Env.sending oneByte) backend v s mib oneByte)
      w).1.isOk = true := by
    intro backend v s mib w
    cases backend <;> rfl
  have hs := @sending_succeeds oneByte hwrite plainStates (by decide) (by decide) (by decide)
  refine (orderIndependent_iff _ _ _ _ _ _ _ hs).mpr (Or.inl fun ctx hctx => ?_)
  refine (buildPlan_isOk_iff_plannable (hs.parsed_visited hctx)).mp ?_
  have hvisited : visited weeklyConfig none plainStates =
      [⟨.localDir, 1, "home", plainSource "home", ⟨⟨7⟩, some 30⟩⟩,
        ⟨.localDir, 1, "root", plainSource "root", ⟨⟨7⟩, some 30⟩⟩] := rfl
  rw [hvisited, List.mem_cons, List.mem_singleton] at hctx
  rcases hctx with rfl | rfl <;> exact ⟨_, rfl⟩

/-- A volume with a snapshot whose date cannot be sliced, and one with a plain snapshot. -/
def accentedStates : List (String × SourceState) :=
  [("home", ⟨Series.new "home" [.plain "20230101", .plain "2023010é"]⟩),
    ("root", plainSource "root")]

theorem accentedStates_order :
    Succeeds .keepAll StreamCodec.identity.toStreamEncoder Env.calm weeklyConfig none
        accentedStates (fun _ => none) ∧
      ¬ OrderIndependent .keepAll StreamCodec.identity.toStreamEncoder Env.calm weeklyConfig none
        accentedStates (fun _ => none) := by
  have hwrite : ∀ backend v s mib w, (outcome (writeSubvolume .keepAll
      StreamCodec.identity.toStreamEncoder (Env.sending []) backend v s mib [])
      w).1.isOk = true := by
    intro backend v s mib w
    cases backend <;> rfl
  refine ⟨sending_succeeds hwrite (by decide) (by decide) (by decide), fun hind => ?_⟩
  have hsame := (hind accentedStates accentedStates.reverse id id (.refl _)
    (List.reverse_perm _)).1 (metaKey "root")
  revert hsame
  decide +kernel

end Bbkar
