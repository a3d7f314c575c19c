import Bbkar.Interleaving
import Bbkar.PartWrites
import Bbkar.VisitedVolumes

/-!
# Runs as processes

A run that shares a destination with others, as a process. It reads the metadata of a volume
when it comes to it, and from then on goes by what it remembers. Every call that reads or
changes the destination is a step of its own, so other runs may come between any two of them.
-/
namespace Bbkar
open Relation Codec Effects Function

/-! ## Processes -/

/-- What a run is at. `written` is what the store would be if nobody else had changed it since
the write of the snapshot began. -/
inductive Work where
  | idle
  | planned (ctx : VolumeContext) (m : DestMeta) (steps : List RunStep)
  | writing (ctx : VolumeContext) (m : DestMeta) (step : RunStep) (rest : List RunStep)
      (stream : SendStream) (written : Store)
  | recording (ctx : VolumeContext) (m : DestMeta) (step : RunStep) (chunks : List ChunkFilename)
      (rest : List RunStep)
  | stopped

/-- The volume a run is in the middle of. -/
def Work.context : Work → Option VolumeContext
  | planned ctx _ _ => some ctx
  | writing ctx _ _ _ _ _ => some ctx
  | recording ctx _ _ _ _ => some ctx
  | _ => none

/-- A run with the volumes it has still to visit, and the record of what it has changed. -/
structure Process where
  todo : List VolumeContext
  work : Work
  trace : List Entry

/-- One step of a run. A write may change part files of its snapshot one at a time, in any
order, and returns only when they hold a whole stream. A run may stop at any moment. -/
inductive Process.Step (H : IncrementalHash) (Z : StreamEncoder) :
    Store × Process → Store × Process → Prop
  | inspectDestVolume {store : Store} {todo : List VolumeContext} {trace : List Entry}
    {ctx : VolumeContext} {plan : RunPlan} {m : DestMeta} :
    Readable store ctx.volume →
    buildPlan ctx.srcState (destStateOn store ctx.volume) ctx.sendPolicy = .ok plan →
    Opens (destStateOn store ctx.volume) m →
    Step H Z (store, ⟨ctx :: todo, .idle, trace⟩)
      (store, ⟨todo, .planned ctx m plan.steps, trace⟩)
  | beginWrite {store : Store} {todo : List VolumeContext} {trace : List Entry}
    {ctx : VolumeContext} {m : DestMeta} {step : RunStep} {rest : List RunStep}
    (stream : SendStream) :
    Step H Z (store, ⟨todo, .planned ctx m (step :: rest), trace⟩)
      (store, ⟨todo, .writing ctx m step rest stream store,
        ⟨.writeSubvolume ctx.volume step.snap.raw stream, store, store⟩ :: trace⟩)
  | writePart {store written : Store} {todo : List VolumeContext} {trace : List Entry}
    {ctx : VolumeContext} {m : DestMeta} {step : RunStep} {rest : List RunStep}
    {stream : SendStream} {key : String} (bytes : Option Bytes) :
    PartsOf ctx.volume step.snap.raw key →
    Step H Z (store, ⟨todo, .writing ctx m step rest stream written, trace⟩)
      (update store key (bytes.map .part),
        ⟨todo, .writing ctx m step rest stream (update written key (bytes.map .part)),
          ⟨.writePart key, store, update store key (bytes.map .part)⟩ :: trace⟩)
  | endWrite {store written : Store} {todo : List VolumeContext} {trace : List Entry}
    {ctx : VolumeContext} {m : DestMeta} {step : RunStep} {rest : List RunStep}
    {stream : SendStream} {chunks : List ChunkFilename} :
    Clean stream →
    StoredStream H Z (ctx.maxBackupChunkSize * 1024 * 1024) ctx.volume step.snap.raw written
      stream chunks →
    Step H Z (store, ⟨todo, .writing ctx m step rest stream written, trace⟩)
      (store, ⟨todo, .recording ctx m step chunks rest, trace⟩)
  | writeMetadata {store store' : Store} {todo : List VolumeContext} {trace : List Entry}
    {ctx : VolumeContext} {m : DestMeta} {step : RunStep} {chunks : List ChunkFilename}
    {rest : List RunStep} (now : ℕ) :
    store' = update store (metaKey ctx.volume) (some (.metadata (m.after step chunks now))) →
    Step H Z (store, ⟨todo, .recording ctx m step chunks rest, trace⟩)
      (store', ⟨todo, .planned ctx (m.after step chunks now) rest,
        ⟨.writeMetadata ctx.volume (m.after step chunks now) true, store, store'⟩ :: trace⟩)
  | failMetadata {store store' : Store} {todo : List VolumeContext} {trace : List Entry}
    {ctx : VolumeContext} {m : DestMeta} {step : RunStep} {chunks : List ChunkFilename}
    {rest : List RunStep} (now : ℕ) :
    store' = store ∨
      store' = update store (metaKey ctx.volume) (some (.metadata (m.after step chunks now))) →
    Step H Z (store, ⟨todo, .recording ctx m step chunks rest, trace⟩)
      (store', ⟨todo, .stopped,
        ⟨.writeMetadata ctx.volume (m.after step chunks now) false, store, store'⟩ :: trace⟩)
  | leave {store : Store} {todo : List VolumeContext} {trace : List Entry} {ctx : VolumeContext}
    {m : DestMeta} :
    Step H Z (store, ⟨todo, .planned ctx m [], trace⟩) (store, ⟨todo, .idle, trace⟩)
  | stop {store : Store} {p : Process} :
    Step H Z (store, p) (store, ⟨p.todo, .stopped, p.trace⟩)

/-- The volumes a run goes over. -/
def Invocation.volumes (i : Invocation) : List VolumeContext :=
  match i.env.inspectSource with
  | .ok states => visited i.config i.name states
  | .error _ => []

/-- A run that has not begun. -/
def Invocation.process (i : Invocation) (trace : List Entry) : Process :=
  ⟨i.volumes, .idle, trace⟩

/-! ## The runs of the program -/

/-- The steps of a run, from `start`, have led to this world and this work. -/
def ArrivesAt (H : IncrementalHash) (Z : StreamEncoder) (start : Store × Process)
    (todo : List VolumeContext) (work : Work) (w : World) : Prop :=
  ReflTransGen (Process.Step H Z) start (w.store, ⟨todo, work, w.trace⟩)

/-- They have led to a stop. -/
def StopsAt (H : IncrementalHash) (Z : StreamEncoder) (start : Store × Process) (w : World) :
    Prop :=
  ∃ todo, ArrivesAt H Z start todo .stopped w

section Runs

variable {H : IncrementalHash} {Z : StreamEncoder} {env : Env} {start : Store × Process}
  {ctx : VolumeContext} {todo : List VolumeContext} {w : World}

theorem ArrivesAt.stop {work : Work} (h : ArrivesAt H Z start todo work w) :
    StopsAt H Z start w := ⟨todo, h.tail .stop⟩

/-- While a snapshot is written, what has been written is what is there. -/
theorem keptByParts_writing {m : DestMeta} {step : RunStep} {rest : List RunStep}
    {stream : SendStream} :
    KeptByParts ctx.volume step.snap.raw fun w =>
      ArrivesAt H Z start todo (.writing ctx m step rest stream w.store) w where
  tick := fun _ h => h
  put := fun _ n bytes h => h.tail (.writePart bytes ⟨n, rfl⟩)

theorem executeStep_steps {m : DestMeta} {step : RunStep} {rest : List RunStep}
    (h : ArrivesAt H Z start todo (.planned ctx m (step :: rest)) w) :
    wp (executeStep H Z env ctx m step)
      (fun m' w' => ArrivesAt H Z start todo (.planned ctx m' rest) w')
      (fun _ w' => StopsAt H Z start w') w := by
  unfold executeStep
  rw [wp_bind]
  refine readSubvolume_spec fun stream _ => ?_
  have hbegun : ArrivesAt H Z start todo (.writing ctx m step rest stream w.store)
      (w.tick.sending ctx.volume step.snap.raw stream) := h.tail (.beginWrite stream)
  rw [wp_bind]
  refine wp_mono (wp_and
    (writeSubvolume_spec ctx.backend ctx.maxBackupChunkSize stream w.tick)
    (keptByParts_writing.writeSubvolume ctx.backend ctx.maxBackupChunkSize stream hbegun)) ?_
    fun _ w' he => ArrivesAt.stop he.2
  intro out w₁ hout
  obtain ⟨⟨-, hclean, hstored⟩, hwriting⟩ := hout
  have hended : ArrivesAt H Z start todo (.recording ctx m step out.1 rest) w₁ :=
    hwriting.tail (.endWrite hclean hstored)
  simp only [wp_bind, wp_modify, wp_ask, wp_pure]
  refine wp_mono (writeMetadata_logged env ctx.volume _ _) ?_ ?_
  · intro _ w' hw'
    obtain ⟨hstore, htrace⟩ := hw'
    unfold ArrivesAt
    rw [htrace]
    exact hended.tail (.writeMetadata _ hstore)
  · intro _ w' hw'
    obtain ⟨hstore, htrace⟩ := hw'
    refine ⟨todo, ?_⟩
    unfold ArrivesAt
    rw [htrace]
    exact hended.tail (.failMetadata _ hstore)

theorem runVolume_steps (h : ArrivesAt H Z start (ctx :: todo) .idle w) :
    wp (runVolume H Z env ctx) (fun _ w' => ArrivesAt H Z start todo .idle w')
      (fun _ w' => StopsAt H Z start w') w := by
  unfold runVolume
  simp only [wp_bind]
  refine wp_mono inspectDestVolume_returned ?_ fun _ w' he => he ▸ ArrivesAt.stop h
  rintro dest w₁ ⟨rfl, hread, rfl⟩
  simp only [wp_liftExcept, wp_modify]
  refine ⟨fun plan hplan => ?_, fun _ _ => h.stop⟩
  have hplanned : ∀ m, Opens (destStateOn w.store ctx.volume) m →
      ArrivesAt H Z start todo (.planned ctx m plan.steps) w :=
    fun m hopen => h.tail (.inspectDestVolume hread hplan hopen)
  unfold executePlan
  split_ifs with hempty
  · rw [wp_pure]
    rw [List.isEmpty_iff] at hempty
    obtain ⟨m, hopen⟩ := exists_opens (destStateOn w.store ctx.volume)
    have hdone := hplanned m hopen
    rw [hempty] at hdone
    exact hdone.tail .leave
  · simp only [wp_bind, wp_pure]
    have hloop : ∀ m w', Opens (destStateOn w.store ctx.volume) m → w'.store = w.store →
        w'.trace = w.trace → wp (plan.steps.foldlM (executeStep H Z env ctx) m)
          (fun _ w'' => ArrivesAt H Z start todo .idle w'') (fun _ w'' => StopsAt H Z start w'')
          w' := by
      intro m w' hopen hstore htrace
      have hstart : ArrivesAt H Z start todo (.planned ctx m plan.steps) w' := by
        unfold ArrivesAt
        rw [hstore, htrace]
        exact hplanned m hopen
      exact wp_mono_ok (wp_foldlM (I := fun rest m w'' =>
        ArrivesAt H Z start todo (.planned ctx m rest) w'') plan.steps m
        (fun _ _ _ _ hat => executeStep_steps hat) hstart) fun _ _ hat => hat.tail .leave
    refine wp_mono openMeta_spec ?_ fun _ _ he => he.elim
    intro m w₂ hw₂
    obtain ⟨hopen, hw₂⟩ := hw₂
    apply hloop m w₂ hopen
    · rcases hw₂ with rfl | rfl <;> rfl
    · rcases hw₂ with rfl | rfl <;> rfl

/-- However a run ends, it has made steps of its process, and left its record. When it returns,
it has been through its volumes. -/
theorem run_steps (H : IncrementalHash) (Z : StreamEncoder) (i : Invocation) (w : World) :
    wp (i.run H Z)
      (fun _ w' => ArrivesAt H Z (w.store, i.process w.trace) [] .idle w')
      (fun _ w' => StopsAt H Z (w.store, i.process w.trace) w') w := by
  unfold Invocation.run Invocation.process Invocation.volumes
  rcases selected_or_unvisited i.config i.name with ⟨sync, hsync, hname⟩ | hnone
  · rw [run_eq_forEachSync, wp_bind, wp_modify, wp_forEachSync hsync hname]
    unfold callInspectSource
    simp only [wp_bind, wp_modify, wp_call, wp_liftExcept]
    refine ⟨fun _ => ⟨fun states hstates => ?_, fun _ _ => ?_⟩, fun _ _ => ?_⟩
    · rw [hstates]
      refine wp_mono_ok (wp_forM (I := fun todo w' => ArrivesAt H Z
        (w.store, ⟨visited i.config i.name states, .idle, w.trace⟩) todo .idle w') _
        (fun _ _ _ hat => runVolume_steps hat) ReflTransGen.refl) fun _ _ hat => hat
    · exact ArrivesAt.stop ReflTransGen.refl
    · exact ArrivesAt.stop ReflTransGen.refl
  · obtain ⟨r, hr⟩ := run_unvisited (H := H) (Z := Z) hnone
    cases r with
    | error e =>
      rw [wp_of_error (hr i.env w)]
      exact ArrivesAt.stop ReflTransGen.refl
    | ok _ =>
      rw [wp_of_ok (hr i.env w)]
      cases i.env.inspectSource with
      | error e => exact ReflTransGen.refl
      | ok states =>
        dsimp only
        rw [visited_unvisited hnone]
        exact ReflTransGen.refl

end Runs

end Bbkar
