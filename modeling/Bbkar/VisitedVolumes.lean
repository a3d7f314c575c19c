import Bbkar.VolumeKeys
import Bbkar.Convergence
import Bbkar.Lockstep

/-!
# The volumes a run visits

A run over a sync goes over the volumes that its filter lets through, in the order of the
source map. Where no call fails, what a run does with a volume is decided by its plan.
-/
namespace Bbkar
open Codec Effects Function

/-- A loop that acts on some elements only is the loop over these. -/
theorem wp_forM_filter {ε σ α β : Type} {p : α → Bool} {g : α → β} {f : β → Exec ε σ PUnit}
    {Q : PUnit → σ → Prop} {E : ε → σ → Prop} (xs : List α) (s : σ) :
    wp (xs.forM fun a => if p a then f (g a) else pure ⟨⟩) Q E s ↔
      wp (((xs.filter p).map g).forM f) Q E s := by
  induction xs generalizing s with
  | nil => exact Iff.rfl
  | cons a xs ih =>
    change wp ((if p a then f (g a) else pure ⟨⟩) >>= fun _ =>
      xs.forM fun a => if p a then f (g a) else pure ⟨⟩) Q E s ↔ _
    by_cases ha : p a = true
    · rw [List.filter_cons_of_pos ha, List.map_cons, if_pos ha]
      change _ ↔ wp (f (g a) >>= fun _ => ((xs.filter p).map g).forM f) Q E s
      simp only [wp_bind, ih]
    · rw [List.filter_cons_of_neg ha, if_neg ha, wp_bind, wp_pure, ih]

/-- The volumes a run with this name goes over, of those the source has. -/
def visited (config : Config) (name : Option String) (states : List (String × SourceState)) :
    List VolumeContext :=
  match config.sync with
  | none => []
  | some sync =>
    if name.all (· == sync.name) then
      (states.filter fun state => sync.filter.any (wildcardMatch · state.1)).map fun state =>
        ⟨config.backend, config.maxBackupChunkSize, state.1, state.2, sync.send⟩
    else []

theorem visited_perm (config : Config) (name : Option String)
    {states states' : List (String × SourceState)} (h : states.Perm states') :
    (visited config name states).Perm (visited config name states') := by
  unfold visited
  cases config.sync with
  | none => exact .nil
  | some sync =>
    simp only
    split_ifs
    · exact (h.filter _).map _
    · exact .nil

theorem visited_cons (config : Config) (name : Option String) (state : String × SourceState)
    (states : List (String × SourceState)) :
    visited config name (state :: states) =
      visited config name [state] ++ visited config name states := by
  unfold visited
  cases config.sync with
  | none => rfl
  | some sync =>
    simp only
    split_ifs
    · rw [← List.map_append, ← List.filter_append, List.singleton_append]
    · rfl

/-- A visited volume is one of the source. -/
theorem mem_visited {config : Config} {name : Option String}
    {states : List (String × SourceState)} {ctx : VolumeContext}
    (h : ctx ∈ visited config name states) :
    ∃ state ∈ states, (ctx.volume, ctx.srcState) = state ∧
      visited config name [state] = [ctx] := by
  unfold visited at h ⊢
  cases hs : config.sync with
  | none => simp [hs] at h
  | some sync =>
    simp only [hs] at h ⊢
    split_ifs at h with hname
    · obtain ⟨state, hstate, rfl⟩ := List.mem_map.mp h
      obtain ⟨hmem, hfilter⟩ := List.mem_filter.mp hstate
      refine ⟨state, hmem, rfl, ?_⟩
      simp only [hname, if_true, List.filter_cons, hfilter, List.filter_nil, List.map_cons,
        List.map_nil]
    · simp at h

theorem visited_maxBackupChunkSize {config : Config} {name : Option String}
    {states : List (String × SourceState)} {ctx : VolumeContext}
    (h : ctx ∈ visited config name states) :
    ctx.maxBackupChunkSize = config.maxBackupChunkSize := by
  unfold visited at h
  cases hs : config.sync with
  | none => simp [hs] at h
  | some sync =>
    simp only [hs] at h
    split_ifs at h
    · obtain ⟨state, -, rfl⟩ := List.mem_map.mp h
      rfl
    · simp at h

theorem visited_volumes_nodup (config : Config) (name : Option String)
    {states : List (String × SourceState)} (h : (states.map Prod.fst).Nodup) :
    ((visited config name states).map VolumeContext.volume).Nodup := by
  unfold visited
  cases config.sync with
  | none => simp
  | some sync =>
    simp only
    split_ifs
    · rw [List.map_map]
      exact h.sublist ((List.filter_sublist).map _)
    · simp

section ForEachSync

variable {σ : Type}

/-- `for_each_sync` with its callbacks, once for the only sync. -/
def forEachSync (inspectSource : Exec Halt σ (List (String × SourceState))) (config : Config)
    (name : Option String) (onSyncStart : Exec Halt σ Unit)
    (onVolume : VolumeContext → Exec Halt σ Unit) (onSyncEnd : Exec Halt σ Unit) :
    Exec Halt σ Unit :=
  let ofSync (sync : SyncSpec) : Exec Halt σ Unit := do
    onSyncStart
    let states ← inspectSource
    states.forM fun state =>
      if sync.filter.any (wildcardMatch · state.1) then
        onVolume ⟨config.backend, config.maxBackupChunkSize, state.1, state.2, sync.send⟩
      else return
    onSyncEnd
  match name, config.sync with
  | none, none => return
  | none, some sync => ofSync sync
  | some name, none => throw (.err (syncNotFound config name))
  | some name, some sync =>
    if name = sync.name then ofSync sync else throw (.err (syncNotFound config name))

variable {inspectSource : Exec Halt σ (List (String × SourceState))} {config : Config}
  {name : Option String} {onSyncStart onSyncEnd : Exec Halt σ Unit}
  {onVolume : VolumeContext → Exec Halt σ Unit}

/-- A command that selects the sync goes over the visited volumes. -/
theorem wp_forEachSync {sync : SyncSpec} (hsync : config.sync = some sync)
    (hname : name.all (· == sync.name) = true) {Q : Unit → σ → Prop} {E : Halt → σ → Prop} {s : σ} :
    wp (forEachSync inspectSource config name onSyncStart onVolume onSyncEnd) Q E s ↔
      wp onSyncStart (fun _ s => wp inspectSource (fun states s =>
        wp ((visited config name states).forM onVolume) (fun _ s => wp onSyncEnd Q E s) E s)
        E s) E s := by
  unfold forEachSync visited
  rw [hsync]
  cases name with
  | none => simp only [wp_bind, wp_forM_filter, Option.all_none, if_true]
  | some name =>
    have hn : name = sync.name := by simpa using hname
    simp only [hn, if_true, wp_bind, wp_forM_filter, Option.all_some, beq_self_eq_true]

/-- Any other command does nothing. -/
theorem forEachSync_unvisited
    (h : ∀ sync, config.sync = some sync → name.all (· == sync.name) = false) :
    ∃ r : Except Halt Unit, ∀ (σ : Type) (inspectSource : Exec Halt σ _)
      (onSyncStart onSyncEnd : Exec Halt σ Unit) (onVolume : VolumeContext → Exec Halt σ Unit)
      (s : σ), outcome (forEachSync inspectSource config name onSyncStart onVolume onSyncEnd) s =
        (r, s) := by
  unfold forEachSync
  cases hs : config.sync with
  | none => cases name <;> exact ⟨_, fun _ _ _ _ _ _ => rfl⟩
  | some sync =>
    have hname := h sync hs
    cases name with
    | none => simp at hname
    | some name =>
      have hn : ¬ name = sync.name := by simpa using hname
      simp only [hn, if_false]
      exact ⟨_, fun _ _ _ _ _ _ => rfl⟩

end ForEachSync

section Runs

variable {H : IncrementalHash} {Z : StreamEncoder} {env : Env} {config : Config}
  {name : Option String} {states : List (String × SourceState)}

/-- The call to `inspect_source`. -/
def callInspectSource (env : Env) : Act (List (String × SourceState)) := do
  let _ ← call env
  liftExcept env.inspectSource

/-- The run is `for_each_sync` with the callbacks of the command. -/
theorem run_eq_forEachSync (H : IncrementalHash) (Z : StreamEncoder) (env : Env)
    (config : Config) (name : Option String) :
    run H Z env config name = (do
      modify fun w => { w with totalBytesSent := 0 }
      forEachSync (callInspectSource env) config name
        (modify fun w =>
          { w with sent := ArchiveStats.default, remote := ArchiveStats.default })
        (runVolume H Z env) (return)) := by
  unfold run runSync forEachSync callInspectSource
  cases name <;> cases config.sync <;> simp

/-- The world in which a run starts to go over its volumes. -/
def World.fresh (w : World) : World :=
  World.tick { w with
    sent := ArchiveStats.default
    remote := ArchiveStats.default
    totalBytesSent := 0 }

/-- A run that selects the sync is the loop over the visited volumes. -/
theorem wp_run_visited {sync : SyncSpec} (hsync : config.sync = some sync)
    (hname : name.all (· == sync.name) = true) (hfault : ∀ n, env.fault n = none)
    (hstates : env.inspectSource = .ok states) {Q : Unit → World → Prop}
    {E : Halt → World → Prop} {w : World} :
    wp (run H Z env config name) Q E w ↔
      wp ((visited config name states).forM (runVolume H Z env)) Q E w.fresh := by
  rw [run_eq_forEachSync, wp_bind, wp_modify, wp_forEachSync hsync hname]
  unfold callInspectSource
  simp only [wp_bind, wp_modify, wp_call, wp_liftExcept, hfault, hstates, wp_pure, true_implies,
    reduceCtorEq, false_implies, implies_true, and_true, Except.ok.injEq, forall_eq']
  exact Iff.rfl

/-- Either the volumes of the synchronisation are visited, or nothing is. -/
theorem selected_or_unvisited (config : Config) (name : Option String) :
    (∃ sync, config.sync = some sync ∧ name.all (· == sync.name) = true) ∨
      ∀ sync, config.sync = some sync → name.all (· == sync.name) = false := by
  by_cases hsel : ∃ sync, config.sync = some sync ∧ name.all (· == sync.name) = true
  · exact Or.inl hsel
  · refine Or.inr fun sync hsync => ?_
    by_contra hname
    exact hsel ⟨sync, hsync, by simpa using hname⟩

/-- Where something is visited, the synchronisation is selected. -/
theorem selected_of_visited {ctx : VolumeContext} (h : ctx ∈ visited config name states) :
    ∃ sync, config.sync = some sync ∧ name.all (· == sync.name) = true := by
  refine (selected_or_unvisited config name).resolve_right fun hnone => ?_
  unfold visited at h
  cases hs : config.sync with
  | none => simp [hs] at h
  | some sync => simp [hs, hnone sync hs] at h

theorem visited_unvisited
    (h : ∀ sync, config.sync = some sync → name.all (· == sync.name) = false) :
    visited config name states = [] := by
  apply List.eq_nil_iff_forall_not_mem.mpr
  intro ctx hctx
  obtain ⟨sync, hsync, hname⟩ := selected_of_visited hctx
  rw [h sync hsync] at hname
  cases hname

/-- Any other run does nothing. -/
theorem run_unvisited (h : ∀ sync, config.sync = some sync → name.all (· == sync.name) = false) :
    ∃ r, ∀ (env : Env) (w : World), outcome (run H Z env config name) w =
      (r, { w with totalBytesSent := 0 }) := by
  obtain ⟨r, hr⟩ := forEachSync_unvisited h
  refine ⟨r, fun env w => ?_⟩
  rw [run_eq_forEachSync]
  exact hr _ _ _ _ _ _

/-! ## One volume -/

/-- Streams depend on the subvolume and its parent only. -/
structure SameStreams (env env' : Env) : Prop where
  full : ∀ n n' subvolume,
    env'.readSubvolumeFull n' subvolume = env.readSubvolumeFull n subvolume
  incremental : ∀ n n' subvolume parent,
    env'.readSubvolumeIncremental n' subvolume parent =
      env.readSubvolumeIncremental n subvolume parent

variable {ctx : VolumeContext}

/-- The writes of a step succeed, whenever they are made. -/
def StepSucceeds (H : IncrementalHash) (Z : StreamEncoder) (env : Env) (ctx : VolumeContext)
    (step : RunStep) : Prop :=
  ∀ stream, Yields env ctx.volume step stream → ∀ w,
    (outcome (writeSubvolume H Z env ctx.backend ctx.volume step.snap.raw ctx.maxBackupChunkSize
      stream) w).1.isOk = true

/-- Planned steps send snapshots of the source on snapshots of the source. -/
theorem Remaining.mem_snapshots {tracked : Prop} {policy : SendPolicy} {src : SourceState}
    {archives : List VolumeArchive} {steps : List RunStep}
    (h : Remaining tracked policy src archives steps) :
    ∀ step ∈ steps, step.snap ∈ src.snapshots ∧
      ∀ p, step.parent = some p → p ∈ src.snapshots := by
  induction steps generalizing archives with
  | nil => simp
  | cons first rest ih =>
    obtain ⟨hfits, hnext⟩ := h.uncons
    intro step hstep
    rcases List.mem_cons.mp hstep with rfl | hstep
    · exact ⟨hfits.snap_mem, fun p hp => (hfits.parent p hp).1⟩
    · exact ih (hnext []) step hstep

/-- The destination can be read: what has the metadata's key is metadata. -/
def Readable (store : Store) (volume : String) : Prop :=
  ∀ bytes, store (metaKey volume) ≠ some (.part bytes)

/-- A destination without metadata has no object in its place. -/
theorem Readable.eq_none {store : Store} {volume : String} (h : Readable store volume)
    (hm : (destStateOn store volume).destMeta = none) : store (metaKey volume) = none := by
  unfold destStateOn at hm
  rcases hs : store (metaKey volume) with _ | ⟨bytes⟩ | ⟨m⟩
  · rfl
  · exact absurd hs (h bytes)
  · simp [hs] at hm

theorem inspectDestVolume_returned {volume : String} {w : World} :
    wp (inspectDestVolume env volume)
      (fun dest w' => dest = destStateOn w.store volume ∧ Readable w.store volume ∧ w' = w.tick)
      (fun _ w' => w' = w.tick) w := by
  unfold inspectDestVolume destStateOn Readable
  simp only [wp_bind, wp_call, wp_get, implies_true, and_true, World.tick_store]
  intro _
  rcases w.store (metaKey volume) with _ | ⟨bytes⟩ | ⟨m⟩
  · exact ⟨rfl, by simp, rfl⟩
  · exact rfl
  · exact ⟨by rw [DestMeta.reload_eq], by simp, rfl⟩

theorem wp_inspectDestVolume (hfault : ∀ n, env.fault n = none) {volume : String} {w : World}
    (hread : Readable w.store volume) {Q : DestState → World → Prop} {E : Halt → World → Prop} :
    wp (inspectDestVolume env volume) Q E w ↔ Q (destStateOn w.store volume) w.tick := by
  unfold inspectDestVolume destStateOn
  simp only [wp_bind, wp_call, wp_get, hfault, true_implies, reduceCtorEq, false_implies,
    implies_true, and_true, World.tick_store]
  rcases hs : w.store (metaKey volume) with _ | ⟨bytes⟩ | ⟨m⟩
  · exact Iff.rfl
  · exact absurd hs (hread bytes)
  · simp only [DestMeta.reload_eq, wp_pure]

theorem runVolume_planError (hfault : ∀ n, env.fault n = none) {w : World}
    (hread : Readable w.store ctx.volume) {e : Halt}
    (hplan : buildPlan ctx.srcState (destStateOn w.store ctx.volume) ctx.sendPolicy = .error e) :
    wp (runVolume H Z env ctx) (fun _ _ => False) (fun _ w' => w'.store = w.store) w := by
  unfold runVolume
  simp only [wp_bind, wp_inspectDestVolume hfault hread, wp_liftExcept, hplan]
  exact ⟨fun _ h => (by cases h), fun _ _ => rfl⟩

theorem runVolume_upToDate (hfault : ∀ n, env.fault n = none) {w : World}
    (hread : Readable w.store ctx.volume)
    (hplan : buildPlan ctx.srcState (destStateOn w.store ctx.volume) ctx.sendPolicy = .ok ⟨[]⟩) :
    wp (runVolume H Z env ctx) (fun _ w' => w'.store = w.store) (fun _ _ => False) w := by
  unfold runVolume
  simp only [wp_bind, wp_inspectDestVolume hfault hread, wp_liftExcept, hplan]
  refine ⟨fun plan h => ?_, fun _ h => by cases h⟩
  obtain rfl := Except.ok.inj h
  exact rfl

theorem executeStep_returns (hfault : ∀ n, env.fault n = none) {step : RunStep}
    (hok : StepSucceeds H Z env ctx step) (m : DestMeta) (w : World) :
    wp (executeStep H Z env ctx m step) (fun _ _ => True) (fun _ _ => False) w := by
  unfold executeStep
  rw [wp_bind]
  refine readSubvolume_spec fun stream hy => ?_
  obtain ⟨written, w₁, hwritten⟩ := exists_of_isOk (hok stream hy w.tick)
  rw [wp_bind, wp_of_ok hwritten]
  unfold writeMetadata
  simp only [wp_bind, wp_modify, wp_ask, wp_get, hfault, wp_putObject, wp_pure]

/-- With a plan every step of which succeeds, the run over the volume returns. -/
theorem runVolume_returns (hfault : ∀ n, env.fault n = none) {w : World}
    (hread : Readable w.store ctx.volume) {plan : RunPlan}
    (hplan : buildPlan ctx.srcState (destStateOn w.store ctx.volume) ctx.sendPolicy = .ok plan)
    (hok : ∀ step ∈ plan.steps, StepSucceeds H Z env ctx step) :
    wp (runVolume H Z env ctx) (fun _ _ => True) (fun _ _ => False) w := by
  have hloop : ∀ m w, wp (plan.steps.foldlM (executeStep H Z env ctx) m) (fun _ _ => True)
      (fun _ _ => False) w := by
    intro m w
    refine wp_foldlM (I := fun rest _ _ => ∀ step ∈ rest, StepSucceeds H Z env ctx step)
      plan.steps m ?_ hok |> fun h => wp_mono_ok h (fun _ _ _ => trivial)
    intro step rest m w hrest
    exact wp_mono_ok (executeStep_returns hfault (hrest step (by simp)) m w)
      (fun _ _ _ s hs => hrest s (List.mem_cons_of_mem _ hs))
  unfold runVolume
  simp only [wp_bind, wp_inspectDestVolume hfault hread, wp_liftExcept, hplan, wp_modify]
  refine ⟨fun plan' h => ?_, fun _ h => by cases h⟩
  obtain rfl := Except.ok.inj h
  unfold executePlan
  split_ifs
  · trivial
  · simp only [wp_bind, wp_pure]
    exact wp_mono openMeta_spec (fun m w₂ _ => hloop m w₂) fun _ _ h => h

end Runs

end Bbkar
