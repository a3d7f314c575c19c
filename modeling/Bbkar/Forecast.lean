import Bbkar.DryRun
import Bbkar.History

/-!
# Dry runs predict runs

Both commands make the same plan from the metadata they find. What a dry run counts while
it measures is what the chunk files of the run add up to, and old metadata with new
archives counts the same as metadata with both.
-/
namespace Bbkar
open Codec Effects Function

/-! ## The forecast of a volume -/

/-- The stream of a step, which does not depend on the call. -/
def streamOf (env : Env) (volume : String) : RunStep → SendStream
  | .sendFull snap => env.readSubvolumeFull 0 (subvolumeName volume snap.raw)
  | .sendIncremental snap parent =>
    env.readSubvolumeIncremental 0 (subvolumeName volume snap.raw) (subvolumeName volume parent.raw)

theorem Yields.eq_streamOf {env env' : Env} (h : SameStreams env env') {volume : String}
    {step : RunStep} {stream : SendStream} (hy : Yields env' volume step stream) :
    stream = streamOf env volume step := by
  cases step with
  | sendFull snap =>
    obtain ⟨n, rfl⟩ := hy
    exact h.full 0 n _
  | sendIncremental snap parent =>
    obtain ⟨n, rfl⟩ := hy
    exact h.incremental 0 n _ _

def compressedLength (Z : StreamEncoder) (stream : SendStream) : ℕ :=
  countBuffers (Z.encode (stdoutPieces stream))

def planSteps (store : Store) (ctx : VolumeContext) : List RunStep :=
  match buildPlan ctx.srcState (destStateOn store ctx.volume) ctx.sendPolicy with
  | .ok plan => plan.steps
  | .error _ => []

def volumeSends (store : Store) (ctx : VolumeContext) : List Send :=
  (planSteps store ctx).map RunStep.toSend

/-- What a step adds to the statistics. -/
def sendStats (Z : StreamEncoder) (env : Env) (volume : String) (step : RunStep) :
    ArchiveStats :=
  .single step.parent.isSome (compressedLength Z (streamOf env volume step))

def stepsStats (Z : StreamEncoder) (env : Env) (volume : String) (steps : List RunStep) :
    ArchiveStats :=
  (steps.map (sendStats Z env volume)).sum

theorem stepsStats_cons (Z : StreamEncoder) (env : Env) (volume : String) (step : RunStep)
    (steps : List RunStep) : stepsStats Z env volume (step :: steps) =
      sendStats Z env volume step + stepsStats Z env volume steps := by
  rw [stepsStats, List.map_cons, List.sum_cons, stepsStats]

/-- What either command reports: the statistics of a sync and the sends of each volume. -/
@[ext] structure Ledger where
  sent : ArchiveStats
  remote : ArchiveStats
  sends : String → List Send

/-- The entries of one more volume, whose old archives are counted with the new ones. -/
def Ledger.extend (Z : StreamEncoder) (env : Env) (store : Store) (l : Ledger)
    (ctx : VolumeContext) : Ledger where
  sent := l.sent + stepsStats Z env ctx.volume (planSteps store ctx)
  remote := l.remote + (ArchiveStats.fromMeta (destStateOn store ctx.volume).destMeta +
    stepsStats Z env ctx.volume (planSteps store ctx))
  sends := fun volume => l.sends volume ++
    if ctx.volume = volume then volumeSends store ctx else []

/-- Volumes of different names have entries of their own. -/
theorem Ledger.extend_comm (Z : StreamEncoder) (env : Env) (store : Store) (l : Ledger)
    {ctx ctx' : VolumeContext} (hne : ctx.volume ≠ ctx'.volume) :
    (l.extend Z env store ctx).extend Z env store ctx' =
      (l.extend Z env store ctx').extend Z env store ctx := by
  apply Ledger.ext
  · exact add_right_comm _ _ _
  · exact add_right_comm _ _ _
  · funext volume
    by_cases hv : ctx.volume = volume
    · simp [extend, hv, show ctx'.volume ≠ volume from fun h => hne (hv.trans h.symm)]
    · simp [extend, hv]

theorem Ledger.foldl_extend_perm (Z : StreamEncoder) (env : Env) (store : Store) (l : Ledger)
    {ctxs ctxs' : List VolumeContext} (hp : ctxs.Perm ctxs')
    (hnames : (ctxs.map VolumeContext.volume).Nodup) :
    ctxs.foldl (Ledger.extend Z env store) l = ctxs'.foldl (Ledger.extend Z env store) l := by
  refine hp.foldl_eq' (fun ctx hctx ctx' hctx' l => ?_) l
  by_cases hv : ctx.volume = ctx'.volume
  · rw [List.inj_on_of_nodup_map hnames hctx hctx' hv]
  · exact l.extend_comm Z env store hv

/-! ## The dry run -/

section Dry

variable {Z : StreamEncoder} {env : Env} {store : Store}

theorem countBuffers_append (bufs bufs' : List Bytes) :
    countBuffers (bufs ++ bufs') = countBuffers bufs + countBuffers bufs' := by
  rw [countBuffers, List.map_append, List.sum_append, countBuffers, countBuffers]

/-- Counting sees all that the encoder hands over. -/
theorem measureSubvolume_spec (stream : SendStream) (w : World) :
    wp (measureSubvolume Z env stream)
      (fun result w' => w'.store = w.store ∧ result.compressed = compressedLength Z stream)
      (fun _ _ => True) w := by
  let I : SendStream → MeasureSession Z → World → Prop := fun rest session w' =>
    w'.store = w.store ∧ session.counter +
      countBuffers (Z.encodeFrom session.encoder (stdoutPieces rest)) = compressedLength Z stream
  unfold measureSubvolume
  simp only [wp_bind, wp_call, wp_pure, implies_true, and_true]
  intro _
  have hstart : I stream ⟨Z.init, 0, 0⟩ w.tick := ⟨rfl, Nat.zero_add _⟩
  refine wp_mono_ok (wp_foldlM (I := I) stream _ ?_ hstart) ?_
  · rintro item rest session w₁ ⟨hw, hcount⟩
    unfold measureItem
    cases item with
    | error e => trivial
    | ok chunk =>
      cases chunk with
      | processExit code stderr => exact ⟨hw, hcount⟩
      | stdoutBytes data offset =>
        simp only [wp_bind, wp_call, wp_pure, implies_true, and_true]
        refine fun _ => ⟨hw, ?_⟩
        simp only [stdoutPieces, StreamEncoder.encodeFrom, countBuffers_append] at hcount
        rw [← hcount, Nat.add_assoc]
  · rintro session w₁ ⟨hw, hcount⟩ _
    exact ⟨hw, hcount⟩

@[simp] theorem wp_executor {α : Type} {x : Act α} {Q : α → DryWorld → Prop}
    {E : Halt → DryWorld → Prop} {d : DryWorld} :
    wp (executor x) Q E d ↔ wp x (fun a w => Q a { d with world := w })
      (fun e w => E e { d with world := w }) d.world :=
  wp_zoom

/-- A line that begins no new volume. -/
def DryrunLine.Inner (line : DryrunLine) : Prop := ∀ name, line ≠ .volume name

theorem DryrunLine.inner_or_volume (line : DryrunLine) :
    line.Inner ∨ ∃ name, line = .volume name := by
  cases line with
  | volume name => exact Or.inr ⟨name, rfl⟩
  | _ => exact Or.inl fun _ h => by cases h

theorem printedSends_cons_volume (volume name : String) (here : Bool) (lines : List DryrunLine) :
    printedSends volume here (.volume name :: lines) =
      printedSends volume (name == volume) lines :=
  rfl

theorem printedSends_cons_inner {line : DryrunLine} (h : line.Inner) (volume : String)
    (here : Bool) (lines : List DryrunLine) : printedSends volume here (line :: lines) =
      (if here then line.send?.toList else []) ++ printedSends volume here lines := by
  cases line with
  | volume name => exact absurd rfl (h name)
  | _ => rfl

theorem printedSends_inner {lines : List DryrunLine} (h : ∀ line ∈ lines, line.Inner)
    (volume : String) (here : Bool) :
    printedSends volume here lines = if here then lines.filterMap DryrunLine.send? else [] := by
  induction lines with
  | nil => cases here <;> rfl
  | cons line lines ih =>
    rw [printedSends_cons_inner (h line (by simp)),
      ih fun l hl => h l (List.mem_cons_of_mem _ hl), List.filterMap_cons]
    cases here <;> cases line.send? <;> simp

/-- The lines of one more volume. -/
theorem printedSends_volume {block : List DryrunLine} (h : ∀ line ∈ block, line.Inner)
    (volume name : String) (here : Bool) (lines : List DryrunLine) :
    printedSends volume here (lines ++ .volume name :: block) =
      printedSends volume here lines ++
        if name = volume then block.filterMap DryrunLine.send? else [] := by
  induction lines generalizing here with
  | nil =>
    rw [List.nil_append, printedSends_cons_volume, printedSends_inner h]
    by_cases hv : name = volume <;> simp [hv, printedSends]
  | cons line lines ih =>
    rcases line.inner_or_volume with hline | ⟨other, rfl⟩
    · rw [List.cons_append, printedSends_cons_inner hline, ih, printedSends_cons_inner hline,
        List.append_assoc]
    · rw [List.cons_append, printedSends_cons_volume, ih, printedSends_cons_volume]

/-- Lines without sends at the end change nothing. -/
theorem printedSends_end {block : List DryrunLine} (h : ∀ line ∈ block, line.Inner)
    (hnone : block.filterMap DryrunLine.send? = []) (volume : String) (here : Bool)
    (lines : List DryrunLine) :
    printedSends volume here (lines ++ block) = printedSends volume here lines := by
  induction lines generalizing here with
  | nil => simp [printedSends_inner h, hnone, printedSends]
  | cons line lines ih =>
    rcases line.inner_or_volume with hline | ⟨other, rfl⟩
    · rw [List.cons_append, printedSends_cons_inner hline, ih, printedSends_cons_inner hline]
    · rw [List.cons_append, printedSends_cons_volume, ih, printedSends_cons_volume]

def DryWorld.ledger (d : DryWorld) : Ledger :=
  ⟨d.wouldSend, d.remote, fun volume => printedSends volume false d.printed⟩

/-- A measured step adds its length to both statistics and prints one line. -/
structure StepForecast (Z : StreamEncoder) (env : Env) (volume : String) (steps : List RunStep)
    (d d' : DryWorld) : Prop where
  store : d'.world.store = d.world.store
  wouldSend : d'.wouldSend = d.wouldSend + stepsStats Z env volume steps
  remote : d'.remote = d.remote + stepsStats Z env volume steps
  printed : ∃ block, d'.printed = d.printed ++ block ∧ (∀ line ∈ block, line.Inner) ∧
    block.filterMap DryrunLine.send? = steps.map RunStep.toSend

theorem wouldSendStep_spec (hs : SameStreams env env) (volume : String) (step : RunStep)
    {line : Option MeasureResult → DryrunLine}
    (hline : ∀ measured, (line measured).send? = some step.toSend) (d : DryWorld) :
    wp (wouldSendStep Z env true volume step step.parent.isSome line)
      (fun _ => StepForecast Z env volume [step] d) (fun _ _ => True) d := by
  unfold wouldSendStep printInfo
  simp only [if_true, wp_bind, wp_executor]
  refine readSubvolume_spec fun stream hy => ?_
  refine wp_mono (measureSubvolume_spec stream _) ?_ (fun _ _ _ => trivial)
  rintro result w ⟨hw, hlength⟩
  simp only [wp_modify]
  have hstats : ArchiveStats.single step.parent.isSome result.compressed =
      stepsStats Z env volume [step] := by
    rw [hlength, hy.eq_streamOf hs, stepsStats_cons]
    exact (add_zero _).symm
  refine ⟨hw, ?_, ?_, [line (some result)], rfl, ?_, ?_⟩
  · exact (ArchiveStats.addSize_eq _ _ _).trans (congrArg _ hstats)
  · exact (ArchiveStats.addSize_eq _ _ _).trans (congrArg _ hstats)
  · intro l hl name hv
    have hsend := hline (some result)
    rw [List.mem_singleton.mp hl] at hv
    rw [hv] at hsend
    cases hsend
  · simp [hline]

theorem dryStep_spec (hs : SameStreams env env) (volume : String) (step : RunStep)
    (d : DryWorld) : wp (dryStep Z env true volume step)
      (fun _ => StepForecast Z env volume [step] d) (fun _ _ => True) d := by
  cases step with
  | sendFull snap => exact wouldSendStep_spec hs volume (.sendFull snap) (fun _ => rfl) d
  | sendIncremental snap parent =>
    exact wouldSendStep_spec hs volume (.sendIncremental snap parent) (fun _ => rfl) d

theorem StepForecast.append {volume : String} {steps steps' : List RunStep}
    {d d₁ d' : DryWorld} (h : StepForecast Z env volume steps d d₁)
    (h' : StepForecast Z env volume steps' d₁ d') :
    StepForecast Z env volume (steps ++ steps') d d' := by
  obtain ⟨block, hprinted, hinner, hsends⟩ := h.printed
  obtain ⟨block', hprinted', hinner', hsends'⟩ := h'.printed
  have hstats : stepsStats Z env volume (steps ++ steps') =
      stepsStats Z env volume steps + stepsStats Z env volume steps' := by
    rw [stepsStats, List.map_append, List.sum_append, stepsStats, stepsStats]
  refine ⟨h'.store.trans h.store, ?_, ?_, block ++ block', ?_, ?_, ?_⟩
  · rw [h'.wouldSend, h.wouldSend, hstats, add_assoc]
  · rw [h'.remote, h.remote, hstats, add_assoc]
  · rw [hprinted', hprinted, List.append_assoc]
  · intro line hline
    exact (List.mem_append.mp hline).elim (hinner line) (hinner' line)
  · rw [List.filterMap_append, hsends, hsends', List.map_append]

/-- The loop over the steps. -/
theorem drySteps_spec (hs : SameStreams env env) (volume : String) (steps : List RunStep)
    (d : DryWorld) : wp (steps.forM (dryStep Z env true volume))
      (fun _ => StepForecast Z env volume steps d) (fun _ _ => True) d := by
  let I : List RunStep → DryWorld → Prop := fun rest d' =>
    ∃ before, steps = before ++ rest ∧ StepForecast Z env volume before d d'
  have hstart : I steps d :=
    ⟨[], rfl, rfl, (add_zero _).symm, (add_zero _).symm, [], by simp, by simp, rfl⟩
  refine wp_mono_ok (wp_forM (I := I) steps ?_ hstart) ?_
  · rintro step rest d₁ ⟨before, hsplit, hbefore⟩
    refine wp_mono_ok (dryStep_spec hs volume step d₁) (fun _ d₂ hstep => ?_)
    exact ⟨before ++ [step], by rw [hsplit, List.append_assoc, List.singleton_append],
      hbefore.append hstep⟩
  · rintro _ d₁ ⟨before, hsplit, hbefore⟩
    rw [List.append_nil] at hsplit
    rwa [hsplit]

/-- A dry run of a volume extends the ledger by the forecast for it. -/
theorem dryVolume_ledger (hs : SameStreams env env) {ctx : VolumeContext} {d : DryWorld}
    (hd : d.world.store = store) :
    wp (dryVolume Z env true ctx)
      (fun _ d' => d'.world.store = store ∧ d'.ledger = d.ledger.extend Z env store ctx)
      (fun _ _ => True) d := by
  unfold dryVolume printInfo
  simp only [wp_bind, wp_modify, wp_executor]
  refine wp_mono inspectDestVolume_returned ?_ (fun _ _ _ => trivial)
  rintro dest w ⟨rfl, -, rfl⟩
  rw [hd]
  simp only [wp_liftExcept]
  refine ⟨fun plan hplan => ?_, fun _ _ => trivial⟩
  have hsteps : planSteps store ctx = plan.steps := by
    rw [planSteps, hplan]
  -- the lines of the volume follow the one that names it
  have hledger : ∀ d' : DryWorld, StepForecast Z env ctx.volume plan.steps
      ⟨d.world.tick, d.wouldSend,
        d.remote.merge (ArchiveStats.fromMeta (destStateOn store ctx.volume).destMeta),
        d.printed ++ [.volume ctx.volume]⟩ d' →
      d'.world.store = store ∧ d'.ledger = d.ledger.extend Z env store ctx := by
    intro d' h
    obtain ⟨block, hprinted, hinner, hsends⟩ := h.printed
    refine ⟨h.store.trans hd, Ledger.ext ?_ ?_ ?_⟩
    · simp only [DryWorld.ledger, Ledger.extend, h.wouldSend, hsteps]
    · simp only [DryWorld.ledger, Ledger.extend, h.remote, hsteps,
        ← ArchiveStats.add_eq_merge, add_assoc]
    · funext volume
      simp only [DryWorld.ledger, Ledger.extend, volumeSends, hsteps, hprinted,
        List.append_assoc, List.singleton_append, printedSends_volume hinner, hsends]
  by_cases hempty : plan.steps.isEmpty = true
  · rw [if_pos hempty, wp_modify]
    rw [List.isEmpty_iff] at hempty
    refine hledger _ ⟨rfl, ?_, ?_, [.upToDate], rfl, ?_, ?_⟩
    · rw [hempty]
      exact (add_zero _).symm
    · rw [hempty]
      exact (add_zero _).symm
    · simp [DryrunLine.Inner]
    · rw [hempty]
      rfl
  · rw [if_neg hempty]
    exact wp_mono (drySteps_spec hs ctx.volume plan.steps _) (fun _ d' h => hledger d' h)
      (fun _ _ _ => trivial)

/-- A dry run reports the forecast for all its volumes. -/
theorem dryrun_ledger {config : Config} {name : Option String} {sync : SyncSpec}
    {states : List (String × SourceState)} (hs : SameStreams env env)
    (hsync : config.sync = some sync) (hname : name.all (· == sync.name) = true)
    (hstates : env.inspectSource = .ok states) :
    wp (dryrun Z env config true name)
      (fun _ d => d.ledger = (visited config name states).foldl (Ledger.extend Z env store)
        ⟨0, 0, fun _ => []⟩) (fun _ _ => True) (DryWorld.start store) := by
  unfold dryrun callInspectSource printInfo
  rw [wp_forEachSync hsync hname]
  simp only [wp_modify, wp_executor, wp_bind, wp_call, wp_liftExcept, hstates, Except.ok.injEq,
    forall_eq', reduceCtorEq, implies_true, and_true, if_true, wp_get]
  intro _
  let I : List VolumeContext → DryWorld → Prop := fun rest d => d.world.store = store ∧
    rest.foldl (Ledger.extend Z env store) d.ledger =
      (visited config name states).foldl (Ledger.extend Z env store) ⟨0, 0, fun _ => []⟩
  refine wp_mono_ok (wp_forM (I := I) (visited config name states) ?_ ⟨rfl, rfl⟩) ?_
  · rintro ctx rest d ⟨hd, hrest⟩
    refine wp_mono_ok (dryVolume_ledger hs hd) (fun _ d' hd' => ⟨hd'.1, ?_⟩)
    rw [hd'.2, ← hrest, List.foldl_cons]
  · rintro _ d ⟨-, hledger⟩
    rw [← hledger]
    refine Ledger.ext rfl rfl (funext fun volume => ?_)
    simp only [DryWorld.ledger, List.append_assoc]
    exact printedSends_end (by simp [DryrunLine.Inner]) rfl volume false d.printed

end Dry

/-! ## The run -/

section Run

variable {H : IncrementalHash} {Z : StreamEncoder} {dry env : Env} {store : Store}
  {ctx : VolumeContext}

/-- The sizes of the chunks, cast to `u32` or not, add up to the compressed length. -/
theorem StoredStream.sum_size {limit : ℕ} {v s : String} {stream : SendStream}
    {chunks : List ChunkFilename} (h : StoredStream H Z limit v s store stream chunks)
    (hlimit : limit ≤ 2 ^ 31) (hbuf : ∀ b ∈ Z.encode (stdoutPieces stream), b.length ≤ 2 ^ 31) :
    (chunks.map (·.size)).sum = compressedLength Z stream := by
  obtain ⟨parts, rfl, hstored, hencodes⟩ := h
  have hbound : bufferBound Z stream ≤ 2 ^ 31 :=
    Finset.sup_le fun b hb => hbuf b (List.mem_toFinset.mp hb)
  have hsize : ∀ p ∈ parts, p.1.size = p.2.length := by
    intro p hp
    have hshort := hencodes.short p hp
    rw [(hstored.describes p hp).size, Nat.mod_eq_of_lt]
    omega
  rw [compressedLength, countBuffers, ← List.length_flatten, ← hencodes.bytes,
    List.length_flatten, List.map_map, List.map_map]
  exact congrArg List.sum (List.map_congr_left hsize)

theorem executedSends_append (volume : String) (new old : List Entry) :
    executedSends volume (new ++ old) = executedSends volume old ++ executedSends volume new := by
  rw [executedSends, List.reverse_append, List.filterMap_append, executedSends, executedSends]

theorem executedSends_cons (volume : String) (e : Entry) (trace : List Entry) :
    executedSends volume (e :: trace) =
      executedSends volume trace ++ (e.send? volume).toList := by
  rw [← List.singleton_append, executedSends_append]
  cases h : e.send? volume <;> simp [executedSends, h]

/-- The writes of a snapshot before its metadata are no sends yet. -/
theorem executedSends_sending {v s : String} {stream : SendStream} {w w₁ : World}
    (h : OnlyParts (PartsOf v s) (w.sending v s stream) w₁) (volume : String) :
    executedSends volume w₁.trace = executedSends volume w.trace := by
  obtain ⟨new, htrace, hnew⟩ := h.trace
  have hnone : executedSends volume new = [] := by
    refine List.filterMap_eq_nil_iff.mpr fun e he => ?_
    obtain ⟨⟨key, -, hevent⟩, -⟩ := hnew e (List.mem_reverse.mp he)
    simp [Entry.send?, hevent]
  rw [htrace, executedSends_append, hnone, List.append_nil, World.sending, World.log_trace,
    executedSends_cons]
  simp [Entry.send?]

/-- The metadata write of a step is the send of the step. -/
theorem send?_writeMetadata {m : DestMeta} {step : RunStep} {before after : Store}
    (hlink : Link ctx.volume m before) (hfresh : step.snap.raw ∉ raws m.archives)
    (chunks : List ChunkFilename) (now : ℕ) (volume : String) :
    Entry.send? volume ⟨.writeMetadata ctx.volume (m.after step chunks now) true, before, after⟩ =
      if ctx.volume = volume then some step.toSend else none := by
  have hfind : (m.after step chunks now).archives.find?
      (fun a => decide (a.raw ∉ raws m.archives)) = some (step.archive chunks) := by
    cases hf : (m.after step chunks now).archives.find?
      (fun a => decide (a.raw ∉ raws m.archives)) with
    | none =>
      have hnot := List.find?_eq_none.mp hf (step.archive chunks)
        ((DestMeta.mem_addArchive m _ _).mpr (Or.inl rfl))
      exact absurd (by simpa using hfresh) hnot
    | some a =>
      have ha : a.raw ∉ raws m.archives := by simpa using List.find?_some hf
      rcases (DestMeta.mem_addArchive m _ a).mp (List.mem_of_find?_eq_some hf) with rfl | hmem
      · rfl
      · exact absurd (mem_raws.mpr ⟨a, hmem, rfl⟩) ha
  simp only [Entry.send?, hlink.destStateOn_archives, hfind]
  rfl

def World.ledger (w : World) : Ledger :=
  ⟨w.sent, w.remote, fun volume => executedSends volume w.trace⟩

/-- A step that returns has reported its send. -/
structure StepReport (Z : StreamEncoder) (dry : Env) (ctx : VolumeContext) (m : DestMeta)
    (step : RunStep) (w : World) (m' : DestMeta) (w' : World) : Prop where
  link : Link ctx.volume m' w'.store
  archives : ∃ chunks, m'.archives.Perm (step.archive chunks :: m.archives)
  sent : w'.sent = w.sent + sendStats Z dry ctx.volume step
  remote : w'.remote = w.remote
  fromMeta : ArchiveStats.fromMeta (some m') =
    ArchiveStats.fromMeta (some m) + sendStats Z dry ctx.volume step
  sends : ∀ volume, executedSends volume w'.trace = executedSends volume w.trace ++
    if ctx.volume = volume then [step.toSend] else []

theorem executeStep_report (hs : SameStreams dry env)
    (hchunk : ctx.maxBackupChunkSize ≤ 2048)
    (hbuf : ∀ pieces, ∀ b ∈ Z.encode pieces, b.length ≤ 2 ^ 31) {m : DestMeta} {step : RunStep}
    {w : World} (hlink : Link ctx.volume m w.store) (hfresh : step.snap.raw ∉ raws m.archives) :
    wp (executeStep H Z env ctx m step) (StepReport Z dry ctx m step w) (fun _ _ => True) w := by
  refine executeStep_rule H Z env ctx m step w (fun _ _ _ _ => trivial) ?_
  intro stream chunks now w₁ hsent
  have hlink₁ : Link ctx.volume m w₁.store :=
    hlink.congr (hsent.frame.store.outside _ (metaKey_not_part _ _ _))
  have hstats : ArchiveStats.ofArchive (step.archive chunks) =
      sendStats Z dry ctx.volume step := by
    have hsum := hsent.stored.sum_size (by omega) (hbuf _)
    rw [hsent.yields.eq_streamOf hs] at hsum
    rw [ArchiveStats.ofArchive, sendStats, ← hsum]
    cases step <;> rfl
  unfold writeMetadata
  simp only [wp_bind, wp_get, wp_modify]
  cases env.fault _ with
  | some e => trivial
  | none =>
    refine ⟨Or.inl (by simp [Persisted]), ⟨chunks, m.addArchive_perm _⟩, ?_, ?_, ?_, ?_⟩
    · change w₁.sent.addArchive (step.archive chunks) = _
      rw [ArchiveStats.addArchive_eq, hstats, hsent.frame.stats.1]
      rfl
    · exact hsent.frame.stats.2.1
    · rw [← hstats, ← ArchiveStats.fromMeta_addArchive]
      rfl
    · intro volume
      rw [World.log_trace, executedSends_cons]
      change executedSends volume w₁.trace ++ (Entry.send? volume ⟨_, w₁.store, _⟩).toList = _
      rw [executedSends_sending hsent.frame]
      refine congrArg _ ((congrArg Option.toList
        (send?_writeMetadata hlink₁ hfresh chunks now volume)).trans ?_)
      by_cases hv : ctx.volume = volume <;> simp [hv]

/-- The ledger follows from what has been counted and sent. -/
theorem ledger_eq_extend {w w' : World} {m : Option DestMeta}
    (hsent : w'.sent = w.sent + stepsStats Z dry ctx.volume (planSteps store ctx))
    (hremote : w'.remote = w.remote)
    (hmeta : ArchiveStats.fromMeta m =
      ArchiveStats.fromMeta (destStateOn store ctx.volume).destMeta +
        stepsStats Z dry ctx.volume (planSteps store ctx))
    (hsends : ∀ volume, executedSends volume w'.trace = executedSends volume w.trace ++
      if ctx.volume = volume then (planSteps store ctx).map RunStep.toSend else []) :
    World.ledger { w' with remote := w'.remote.merge (ArchiveStats.fromMeta m) } =
      w.ledger.extend Z dry store ctx := by
  refine Ledger.ext ?_ ?_ (funext fun volume => ?_)
  · simp only [World.ledger, Ledger.extend, hsent]
  · simp only [World.ledger, Ledger.extend, hremote, hmeta, ArchiveStats.add_eq_merge]
  · simp only [World.ledger, Ledger.extend, volumeSends, hsends]

/-- A run over the volume that began in `w` has some steps left, which complete what it has
reported. -/
structure Reporting (Z : StreamEncoder) (dry : Env) (store : Store) (ctx : VolumeContext)
    (w : World) (rest : List RunStep) (m : DestMeta) (w' : World) : Prop where
  link : Link ctx.volume m w'.store
  remaining : Remaining False ctx.sendPolicy ctx.srcState m.archives rest
  sent : w'.sent + stepsStats Z dry ctx.volume rest =
    w.sent + stepsStats Z dry ctx.volume (planSteps store ctx)
  remote : w'.remote = w.remote
  fromMeta : ArchiveStats.fromMeta (some m) + stepsStats Z dry ctx.volume rest =
    ArchiveStats.fromMeta (destStateOn store ctx.volume).destMeta +
      stepsStats Z dry ctx.volume (planSteps store ctx)
  sends : ∀ volume, (executedSends volume w'.trace ++
      if ctx.volume = volume then rest.map RunStep.toSend else []) =
    executedSends volume w.trace ++
      if ctx.volume = volume then (planSteps store ctx).map RunStep.toSend else []

theorem Reporting.step (hs : SameStreams dry env) (hchunk : ctx.maxBackupChunkSize ≤ 2048)
    (hbuf : ∀ pieces, ∀ b ∈ Z.encode pieces, b.length ≤ 2 ^ 31) {m : DestMeta}
    {step : RunStep} {rest : List RunStep} {w w₁ : World}
    (h : Reporting Z dry store ctx w (step :: rest) m w₁) :
    wp (executeStep H Z env ctx m step) (Reporting Z dry store ctx w rest) (fun _ _ => True)
      w₁ := by
  obtain ⟨hfits, hnext⟩ := h.remaining.uncons
  refine wp_mono_ok (executeStep_report hs hchunk hbuf h.link hfits.fresh) ?_
  intro m' w₂ hreport
  obtain ⟨chunks, hperm⟩ := hreport.archives
  constructor
  · exact hreport.link
  · exact (hnext chunks).perm hperm.symm
  · rw [hreport.sent, add_assoc, ← stepsStats_cons, h.sent]
  · exact hreport.remote.trans h.remote
  · rw [hreport.fromMeta, add_assoc, ← stepsStats_cons, h.fromMeta]
  · intro volume
    rw [hreport.sends, ← h.sends]
    by_cases hv : ctx.volume = volume <;> simp [hv]

theorem Reporting.ledger_eq {w w' : World} {m : DestMeta}
    (h : Reporting Z dry store ctx w [] m w') :
    World.ledger { w' with remote := w'.remote.merge (ArchiveStats.fromMeta (some m)) } =
      w.ledger.extend Z dry store ctx := by
  refine ledger_eq_extend ((add_zero _).symm.trans h.sent) h.remote
    ((add_zero _).symm.trans h.fromMeta) fun volume => ?_
  rw [← h.sends]
  by_cases hv : ctx.volume = volume <;> simp [hv]

/-- A run over a volume extends the ledger by the forecast for it. -/
theorem runVolume_ledger (hs : SameStreams dry env) (hchunk : ctx.maxBackupChunkSize ≤ 2048)
    (hbuf : ∀ pieces, ∀ b ∈ Z.encode pieces, b.length ≤ 2 ^ 31) {w : World}
    (hw : ∀ key, KeyOf ctx.volume key → w.store key = store key) :
    wp (runVolume H Z env ctx) (fun _ w' => w'.ledger = w.ledger.extend Z dry store ctx)
      (fun _ _ => True) w := by
  have hdest : destStateOn w.store ctx.volume = destStateOn store ctx.volume := by
    unfold destStateOn
    rw [hw _ (keyOf_metaKey _)]
  unfold runVolume
  simp only [wp_bind]
  refine wp_mono inspectDestVolume_returned ?_ (fun _ _ _ => trivial)
  rintro dest w₁ ⟨rfl, hread, rfl⟩
  rw [hdest]
  simp only [wp_liftExcept, wp_modify]
  refine ⟨fun plan hplan => ?_, fun _ _ => trivial⟩
  have hsteps : planSteps store ctx = plan.steps := by
    rw [planSteps, hplan]
  unfold executePlan
  by_cases hempty : plan.steps.isEmpty = true
  · rw [if_pos hempty, wp_pure]
    rw [List.isEmpty_iff, ← hsteps] at hempty
    refine ledger_eq_extend ?_ rfl ?_ ?_
    · rw [hempty]
      exact (add_zero _).symm
    · rw [hempty]
      exact (add_zero _).symm
    · simp [hempty]
  · rw [if_neg hempty]
    simp only [wp_bind, wp_pure]
    have hloop : ∀ m w', Reporting Z dry store ctx w plan.steps m w' →
        wp (plan.steps.foldlM (executeStep H Z env ctx) m) (fun m' w'' => World.ledger
          { w'' with remote := w''.remote.merge (ArchiveStats.fromMeta (some m')) } =
            w.ledger.extend Z dry store ctx) (fun _ _ => True) w' := by
      intro m w' hm
      exact wp_mono_ok (wp_foldlM (I := Reporting Z dry store ctx w) plan.steps m
        (fun step rest m w₁ h => h.step hs hchunk hbuf) hm)
        (fun m' w'' h => h.ledger_eq)
    have hlink : ∀ m, Opens (destStateOn store ctx.volume) m → Link ctx.volume m w.store := by
      rintro m (hm | ⟨hnone, now, rfl⟩)
      · exact Or.inl (persisted_of_destMeta (hdest ▸ hm))
      · exact Or.inr ⟨hread.eq_none (hdest ▸ hnone), rfl⟩
    have hstats : ∀ m, Opens (destStateOn store ctx.volume) m →
        ArchiveStats.fromMeta (some m) =
          ArchiveStats.fromMeta (destStateOn store ctx.volume).destMeta := by
      rintro m (hm | ⟨hnone, now, rfl⟩)
      · rw [hm]
      · rw [hnone]
        rfl
    refine wp_mono openMeta_spec ?_ fun _ _ h => h.elim
    rintro m w₂ ⟨hopen, hsame⟩
    have hrest : Remaining False ctx.sendPolicy ctx.srcState m.archives plan.steps :=
      hopen.archives_eq ▸ Remaining.of_buildPlan hplan False.elim
    refine hloop m w₂ ?_
    rcases hsame with rfl | rfl
    all_goals
      rw [← hsteps]
      exact ⟨hlink m hopen, hsteps ▸ hrest, rfl, rfl, by rw [hstats m hopen], fun _ => rfl⟩

/-- A run reports the forecast for all its volumes. -/
theorem run_ledger {config : Config} {name : Option String} {sync : SyncSpec}
    {states : List (String × SourceState)} (hs : SameStreams dry env)
    (hchunk : config.maxBackupChunkSize ≤ 2048)
    (hbuf : ∀ pieces, ∀ b ∈ Z.encode pieces, b.length ≤ 2 ^ 31)
    (hsync : config.sync = some sync) (hname : name.all (· == sync.name) = true)
    (hstates : env.inspectSource = .ok states) (hnames : (states.map Prod.fst).Nodup)
    (hslash : ∀ state ∈ states, SlashFree state.1) :
    wp (run H Z env config name)
      (fun _ w => w.ledger = (visited config name states).foldl (Ledger.extend Z dry store)
        ⟨0, 0, fun _ => []⟩) (fun _ _ => True) (World.start store) := by
  rw [run_eq_forEachSync, wp_bind, wp_modify, wp_forEachSync hsync hname]
  unfold callInspectSource
  simp only [wp_modify, wp_bind, wp_call, wp_liftExcept, hstates, Except.ok.injEq,
    forall_eq', reduceCtorEq, implies_true, and_true, wp_pure]
  intro _
  let I : List VolumeContext → World → Prop := fun rest w =>
    (∀ ctx ∈ rest, ctx ∈ visited config name states) ∧
      (rest.map VolumeContext.volume).Nodup ∧
      (∀ ctx ∈ rest, ∀ key, KeyOf ctx.volume key → w.store key = store key) ∧
      rest.foldl (Ledger.extend Z dry store) w.ledger =
        (visited config name states).foldl (Ledger.extend Z dry store) ⟨0, 0, fun _ => []⟩
  refine wp_mono_ok (wp_forM (I := I) (visited config name states) ?_
    ⟨fun _ h => h, visited_volumes_nodup config name hnames, fun _ _ _ _ => rfl, rfl⟩)
    (fun _ w h => h.2.2.2)
  rintro ctx rest w ⟨hmem, hnodup, hstore, hrest⟩
  have hslash' : ∀ ctx ∈ visited config name states, SlashFree ctx.volume := by
    intro ctx hctx
    obtain ⟨state, hstate, rfl, -⟩ := mem_visited hctx
    exact hslash _ hstate
  obtain ⟨hhead, hnodup⟩ := List.nodup_cons.mp hnodup
  have hsize : ctx.maxBackupChunkSize ≤ 2048 := by
    rwa [visited_maxBackupChunkSize (hmem ctx (by simp))]
  have hledger := runVolume_ledger (H := H) hs hsize hbuf (hstore ctx (by simp))
  rcases hout : outcome (runVolume H Z env ctx) w with ⟨e | u, w'⟩
  · exact (wp_of_error hout).mpr trivial
  · rw [wp_of_ok hout] at hledger ⊢
    refine ⟨fun c hc => hmem c (List.mem_cons_of_mem _ hc), hnodup, ?_, ?_⟩
    · intro c hc key hkey
      have hne : c.volume ≠ ctx.volume := fun h => hhead (h ▸ List.mem_map_of_mem hc)
      have hother := runVolume_other H Z env
        (hslash' ctx (hmem ctx (by simp)))
        (hslash' c (hmem c (List.mem_cons_of_mem _ hc))) hne hkey w
      rw [hout] at hother
      exact hother.trans (hstore c (List.mem_cons_of_mem _ hc) key hkey)
    · rw [hledger, ← hrest, List.foldl_cons]

end Run

/-- When a measuring dry run and a run from the same store both return, with the same
streams and the volumes in any two orders, the dry run has printed for every volume the
sends that the run has executed, and their statistics are the same. -/
theorem dryrun_forecasts (H : IncrementalHash) (Z : StreamEncoder) (dry env : Env)
    (config : Config) (name : Option String) (xs ys : List (String × SourceState))
    (store : Store) (hstreams : SameStreams dry env) (hxs : dry.inspectSource = .ok xs)
    (hys : env.inspectSource = .ok ys) (hperm : xs.Perm ys) (hnames : (xs.map Prod.fst).Nodup)
    (hslash : ∀ state ∈ xs, SlashFree state.1)
    (hchunk : 1 ≤ config.maxBackupChunkSize ∧ config.maxBackupChunkSize ≤ 2048)
    (hbuf : ∀ pieces, ∀ b ∈ Z.encode pieces, b.length ≤ 2 ^ 31) (d : DryWorld) (w : World)
    (hdry : outcome (dryrun Z dry config true name) (DryWorld.start store) = (.ok (), d))
    (hrun : outcome (run H Z env config name) (World.start store) = (.ok (), w)) :
    (∀ volume, printedSends volume false d.printed = executedSends volume w.trace) ∧
      d.wouldSend = w.sent ∧ d.remote = w.remote := by
  have hledger : d.ledger = w.ledger := by
    rcases selected_or_unvisited config name with ⟨sync, hsync, hname⟩ | hunsel
    · have hsame : SameStreams dry dry := by
        refine ⟨fun n n' sub => ?_, fun n n' sub parent => ?_⟩
        · rw [← hstreams.full n 0, ← hstreams.full n' 0]
        · rw [← hstreams.incremental n 0, ← hstreams.incremental n' 0]
      have hd := wp_ok (dryrun_ledger hsame hsync hname hxs) hdry
      have hw := wp_ok (run_ledger hstreams hchunk.2 hbuf hsync hname hys
        ((hperm.map _).nodup_iff.mp hnames)
        (fun state hstate => hslash state (hperm.mem_iff.mpr hstate))) hrun
      rw [hd, hw]
      exact Ledger.foldl_extend_perm Z dry store _ (visited_perm config name hperm)
        (visited_volumes_nodup config name hnames)
    · obtain ⟨r, hr⟩ := forEachSync_unvisited hunsel
      obtain ⟨r', hr'⟩ := run_unvisited (H := H) (Z := Z) hunsel
      rw [dryrun, hr] at hdry
      rw [hr'] at hrun
      obtain rfl := (Prod.mk.inj hdry).2
      obtain rfl := (Prod.mk.inj hrun).2
      rfl
  exact ⟨fun volume => congrFun (congrArg Ledger.sends hledger) volume,
    congrArg Ledger.sent hledger, congrArg Ledger.remote hledger⟩

/-- The two days, with three bytes to send in full and two on top of them. -/
def sizedTwoDays : Invocation :=
  { twoDays (some 2) with
    env := { (twoDays (some 2)).env with
      readSubvolumeFull := fun _ _ => [.ok (.stdoutBytes [1, 2, 3] 0), .ok (.processExit 0 "")]
      readSubvolumeIncremental := fun _ _ _ =>
        [.ok (.stdoutBytes [4] 0), .ok (.stdoutBytes [5] 1), .ok (.processExit 0 "")] } }

/-- A destination with seven bytes of an older snapshot. -/
def olderKept : Store :=
  update (fun _ => none) (metaKey "root") (some (.metadata (DestMeta.new 0 0
    [⟨.plain "20221231", none, [⟨partFilename 1, 7, none, none, none⟩]⟩])))

def dryTwoDays : Except Halt Unit × DryWorld :=
  outcome (dryrun StreamCodec.bytewise.toStreamEncoder sizedTwoDays.env sizedTwoDays.config true
    none) (DryWorld.start olderKept)

/-- The run after it. -/
def ranTwoDays : Except Halt Unit × World :=
  outcome (run .keepAll StreamCodec.bytewise.toStreamEncoder sizedTwoDays.env sizedTwoDays.config
    none) (World.start olderKept)

theorem dryrun_forecasts_twoDays :
    ((∀ volume, printedSends volume false dryTwoDays.2.printed =
        executedSends volume ranTwoDays.2.trace) ∧
      dryTwoDays.2.wouldSend = ranTwoDays.2.sent ∧ dryTwoDays.2.remote = ranTwoDays.2.remote) ∧
    printedSends "root" false dryTwoDays.2.printed =
      [⟨"20230101", none⟩, ⟨"20230102", some "20230101"⟩] ∧
    dryTwoDays.2.wouldSend = ⟨2, 5, 1, 3, 1, 2⟩ ∧ dryTwoDays.2.remote = ⟨3, 12, 2, 10, 1, 2⟩ := by
  obtain ⟨u, d, hdry⟩ : ∃ u d, dryTwoDays = (.ok u, d) := exists_of_isOk (by decide +kernel)
  obtain ⟨u', w, hran⟩ : ∃ u w, ranTwoDays = (.ok u, w) := exists_of_isOk (by decide +kernel)
  have hbytes : ∀ pieces, ∀ b ∈ StreamCodec.bytewise.toStreamEncoder.encode pieces,
      b.length ≤ 2 ^ 31 := by
    intro pieces b hb
    rw [StreamCodec.bytewise_buffers pieces b hb]
    omega
  refine ⟨?_, by decide +kernel, by decide +kernel, by decide +kernel⟩
  rw [hdry, hran]
  unfold dryTwoDays at hdry
  unfold ranTwoDays at hran
  exact dryrun_forecasts .keepAll StreamCodec.bytewise.toStreamEncoder sizedTwoDays.env
    sizedTwoDays.env sizedTwoDays.config none [("root", twoDaysSource)]
    [("root", twoDaysSource)] olderKept ⟨fun _ _ _ => rfl, fun _ _ _ _ => rfl⟩ rfl rfl
    (.refl _) (by decide) (by decide) (by decide) hbytes d w hdry hran

end Bbkar
