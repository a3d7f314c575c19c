import Bbkar.VisitedVolumes
import Mathlib.Logic.Relation

/-!
# Overlapping runs

Several runs over one volume of a destination, interleaved at the calls that read or write
it. Each run reads metadata once, follows its own plan, and replaces the metadata file
with what it has in memory after every snapshot. Nothing keeps a second run from starting,
so a run may replace archives that it has not seen.
-/
namespace Bbkar
open Relation Codec Effects Function

/-! ## Interleavings -/

/-- Where a run is: with the metadata in its memory and the steps left of its plan, perhaps
between the two writes of a step. -/
inductive Phase where
  | waiting
  | sending (m : DestMeta) (steps : List RunStep)
  | recording (m : DestMeta) (step : RunStep) (chunks : List ChunkFilename)
      (rest : List RunStep)
  | stopped

structure Overlap (ι : Type) where
  store : Store
  phase : ι → Phase

inductive Move where
  | inspectDestVolume
  | writeSubvolume
  | writeMetadata
  | stop
  deriving DecidableEq, Repr

section Moves

variable {ι : Type} [DecidableEq ι]

/-- One run has gone on to another phase. -/
def Overlap.advance (s : Overlap ι) (i : ι) (store : Store) (p : Phase) : Overlap ι :=
  ⟨store, update s.phase i p⟩

@[simp] theorem Overlap.advance_store (s : Overlap ι) (i : ι) (store : Store) (p : Phase) :
    (s.advance i store p).store = store := rfl

@[simp] theorem Overlap.advance_self (s : Overlap ι) (i : ι) (store : Store) (p : Phase) :
    (s.advance i store p).phase i = p := update_self ..

theorem Overlap.advance_of_ne (s : Overlap ι) {i j : ι} (h : j ≠ i) (store : Store) (p : Phase) :
    (s.advance i store p).phase j = s.phase j := update_of_ne h ..

/-- One run makes a move. Writing a snapshot may do anything to its part files, and a run
may stop after any move. -/
inductive Moves (ctx : VolumeContext) : Overlap ι → ι → Move → Overlap ι → Prop
  | inspectDestVolume {s : Overlap ι} {i : ι} {plan : RunPlan} {m : DestMeta} :
    s.phase i = .waiting → Readable s.store ctx.volume →
    buildPlan ctx.srcState (destStateOn s.store ctx.volume) ctx.sendPolicy = .ok plan →
    Opens (destStateOn s.store ctx.volume) m →
    Moves ctx s i .inspectDestVolume (s.advance i s.store (.sending m plan.steps))
  | writeSubvolume {s : Overlap ι} {i : ι} {m : DestMeta} {step : RunStep}
    {rest : List RunStep} {store : Store} (chunks : List ChunkFilename) :
    s.phase i = .sending m (step :: rest) →
    DiffersAt (PartsOf ctx.volume step.snap.raw) s.store store →
    Moves ctx s i .writeSubvolume (s.advance i store (.recording m step chunks rest))
  | writeMetadata {s : Overlap ι} {i : ι} {m : DestMeta} {step : RunStep}
    {chunks : List ChunkFilename} {rest : List RunStep} (now : ℕ) :
    s.phase i = .recording m step chunks rest →
    Moves ctx s i .writeMetadata
      (s.advance i
        (update s.store (metaKey ctx.volume) (some (.metadata (m.after step chunks now))))
        (.sending (m.after step chunks now) rest))
  | stop {s : Overlap ι} {i : ι} : Moves ctx s i .stop (s.advance i s.store .stopped)

/-- Moves of any runs that meet a condition. -/
def Interleaved (ctx : VolumeContext) (allowed : Overlap ι → ι → Move → Prop) :
    Overlap ι → Overlap ι → Prop :=
  ReflTransGen fun s s' => ∃ i move, Moves ctx s i move s' ∧ allowed s i move

theorem Interleaved.start (ctx : VolumeContext) (s : Overlap ι) :
    Interleaved ctx (fun _ _ _ => True) s s := .refl

theorem Interleaved.next {ctx : VolumeContext} {s s' s'' : Overlap ι} {i : ι} {move : Move}
    (h : Interleaved ctx (fun _ _ _ => True) s s') (hm : Moves ctx s' i move s'') :
    Interleaved ctx (fun _ _ _ => True) s s'' :=
  h.tail ⟨i, move, hm, trivial⟩

/-- The archive with its parent. -/
def HasArchive (archives : List VolumeArchive) (name : String) (parent : Option String) : Prop :=
  ∃ a ∈ archives, a.raw = name ∧ a.parentTimestamp = parent

/-- The archive is in the persisted metadata. -/
def Recorded (ctx : VolumeContext) (store : Store) (name : String) (parent : Option String) :
    Prop :=
  HasArchive (destStateOn store ctx.volume).archives name parent

/-- The archives in a run's memory, and the one it is about to record. -/
def Phase.known : Phase → List VolumeArchive
  | sending m _ => m.archives
  | recording m step chunks _ => step.archive chunks :: m.archives
  | _ => []

/-- The run has not begun, has ended, or knows the archive. -/
def Phase.Harmless (name : String) (parent : Option String) (p : Phase) : Prop :=
  p = .waiting ∨ p = .stopped ∨ HasArchive p.known name parent

/-- The run neither has begun nor has anything left to do. -/
def Phase.Idle (p : Phase) : Prop :=
  p = .waiting ∨ p = .stopped ∨ ∃ m, p = .sending m []

theorem mem_after {m : DestMeta} {step : RunStep} {chunks : List ChunkFilename} {now : ℕ}
    {a : VolumeArchive} :
    a ∈ (m.after step chunks now).archives ↔ a = step.archive chunks ∨ a ∈ m.archives :=
  DestMeta.mem_addArchive m _ a

theorem recorded_metadata {ctx : VolumeContext} {store : Store} {m : DestMeta} {name : String}
    {parent : Option String} :
    Recorded ctx (update store (metaKey ctx.volume) (some (.metadata m))) name parent ↔
      HasArchive m.archives name parent := by
  have hp : Persisted (update store (metaKey ctx.volume) (some (.metadata m))) ctx.volume m := by
    simp [Persisted]
  rw [Recorded, destStateOn_persisted hp]
  rfl

/-- Part files do not change what is recorded. -/
theorem destStateOn_parts {ctx : VolumeContext} {snapshot : String} {store store' : Store}
    (h : DiffersAt (PartsOf ctx.volume snapshot) store store') :
    destStateOn store' ctx.volume = destStateOn store ctx.volume := by
  unfold destStateOn
  rw [h.outside _ (metaKey_not_part _ _ _)]

variable {ctx : VolumeContext} {name : String} {parent : Option String} {s s' : Overlap ι}
  {i : ι} {move : Move}

/-- A harmless run stays harmless while the archive is recorded. -/
theorem Moves.harmless (h : Moves ctx s i move s') (hrec : Recorded ctx s.store name parent)
    {j : ι} (hj : (s.phase j).Harmless name parent) : (s'.phase j).Harmless name parent := by
  by_cases hij : j = i
  · subst hij
    cases h with
    | inspectDestVolume hphase hread hplan hopen =>
      rw [Overlap.advance_self]
      refine Or.inr (Or.inr ?_)
      rw [Phase.known, hopen.archives_eq]
      exact hrec
    | writeSubvolume chunks hphase hparts =>
      rw [Overlap.advance_self]
      rw [hphase] at hj
      obtain ⟨a, ha, hname⟩ : HasArchive _ name parent := by simpa [Phase.Harmless] using hj
      exact Or.inr (Or.inr ⟨a, List.mem_cons_of_mem _ ha, hname⟩)
    | writeMetadata now hphase =>
      rw [Overlap.advance_self]
      rw [hphase] at hj
      obtain ⟨a, ha, hname⟩ : HasArchive _ name parent := by simpa [Phase.Harmless] using hj
      exact Or.inr (Or.inr ⟨a, mem_after.mpr (List.mem_cons.mp ha), hname⟩)
    | stop =>
      rw [Overlap.advance_self]
      exact Or.inr (Or.inl rfl)
  · cases h <;> rwa [Overlap.advance_of_ne s hij]

/-- After a metadata write exactly what the writing run knew is recorded. -/
theorem Moves.recorded_iff (h : Moves ctx s i .writeMetadata s') :
    Recorded ctx s'.store name parent ↔ HasArchive (s.phase i).known name parent := by
  cases h with
  | writeMetadata now hphase =>
    rw [Overlap.advance_store, recorded_metadata, hphase]
    simp only [HasArchive, mem_after, Phase.known, List.mem_cons]

/-- Only a run that does not know the archive can remove it, by writing metadata. -/
theorem Moves.recorded (h : Moves ctx s i move s') (hrec : Recorded ctx s.store name parent)
    (hknown : move = .writeMetadata → (s.phase i).Harmless name parent) :
    Recorded ctx s'.store name parent := by
  cases h with
  | inspectDestVolume hphase hread hplan hopen => exact hrec
  | writeSubvolume chunks hphase hparts =>
    rw [Recorded, Overlap.advance_store, destStateOn_parts hparts]
    exact hrec
  | writeMetadata now hphase =>
    have hj := hknown rfl
    refine (Moves.recorded_iff (.writeMetadata now hphase)).mpr ?_
    rw [hphase] at hj ⊢
    simpa [Phase.Harmless] using hj
  | stop => exact hrec

/-- The archive stays as long as metadata is written by runs only that were harmless when it
was recorded. -/
theorem Interleaved.recorded
    (h : Interleaved ctx
      (fun _ i move => move = .writeMetadata → (s.phase i).Harmless name parent) s s')
    (hrec : Recorded ctx s.store name parent) :
    Recorded ctx s'.store name parent ∧
      ∀ i, (s.phase i).Harmless name parent → (s'.phase i).Harmless name parent := by
  induction h with
  | refl => exact ⟨hrec, fun _ hi => hi⟩
  | tail _ hstep ih =>
    obtain ⟨i, move, hmove, hallowed⟩ := hstep
    obtain ⟨hrec', hharmless⟩ := ih
    refine ⟨hmove.recorded hrec' fun hw => hharmless i (hallowed hw), fun j hj => ?_⟩
    exact hmove.harmless hrec' (hharmless j hj)

/-! ## One run at a time -/

/-- The metadata in the run's memory lists these archives. -/
def Phase.Remembers (archives : List VolumeArchive) : Phase → Prop
  | sending m _ => m.archives = archives
  | recording m _ _ _ => m.archives = archives
  | _ => True

/-- At most one run has something left to do, and what it remembers is what is persisted. -/
structure OneAtATime (ctx : VolumeContext) (s : Overlap ι) : Prop where
  one : ∀ i j, ¬ (s.phase i).Idle → ¬ (s.phase j).Idle → i = j
  remembers : ∀ i, ¬ (s.phase i).Idle →
    (s.phase i).Remembers (destStateOn s.store ctx.volume).archives

/-- A run reads the destination when every other run has ended or has not begun. -/
def WaitsForOthers (s : Overlap ι) (i : ι) (move : Move) : Prop :=
  move = .inspectDestVolume → ∀ j, j ≠ i → (s.phase j).Idle

theorem not_idle_sending {m : DestMeta} {step : RunStep} {rest : List RunStep} :
    ¬ (Phase.sending m (step :: rest)).Idle := by
  simp [Phase.Idle]

theorem not_idle_recording {m : DestMeta} {step : RunStep} {chunks : List ChunkFilename}
    {rest : List RunStep} : ¬ (Phase.recording m step chunks rest).Idle := by
  simp [Phase.Idle]

/-- When the others have nothing left to do, only the run that has moved matters. -/
theorem OneAtATime.advance {store : Store} {p : Phase}
    (hothers : ∀ j, j ≠ i → (s.phase j).Idle)
    (hp : p.Remembers (destStateOn store ctx.volume).archives) :
    OneAtATime ctx (s.advance i store p) := by
  have honly : ∀ j, ¬ ((s.advance i store p).phase j).Idle → j = i := by
    intro j hj
    by_contra hne
    rw [Overlap.advance_of_ne s hne] at hj
    exact hj (hothers j hne)
  refine ⟨fun j k hj hk => (honly j hj).trans (honly k hk).symm, fun j hj => ?_⟩
  obtain rfl := honly j hj
  rw [Overlap.advance_self]
  exact hp

theorem OneAtATime.next (h : OneAtATime ctx s) (hmove : Moves ctx s i move s')
    (hwaits : WaitsForOthers s i move) : OneAtATime ctx s' := by
  have hothers : ¬ (s.phase i).Idle → ∀ j, j ≠ i → (s.phase j).Idle := by
    intro hi j hne
    by_contra hj
    exact hne (h.one j i hj hi)
  cases hmove with
  | inspectDestVolume hphase hread hplan hopen => exact .advance (hwaits rfl) hopen.archives_eq
  | writeSubvolume chunks hphase hparts =>
    have hi : ¬ (s.phase i).Idle := hphase ▸ not_idle_sending
    have hm := h.remembers i hi
    rw [hphase] at hm
    refine .advance (hothers hi) ?_
    rw [destStateOn_parts hparts]
    exact hm
  | writeMetadata now hphase =>
    have hi : ¬ (s.phase i).Idle := hphase ▸ not_idle_recording
    refine .advance (hothers hi) ?_
    rw [destStateOn_persisted (update_self ..)]
    rfl
  | stop =>
    -- the run that has stopped is idle, the others are as before
    have hsame : ∀ j, ¬ ((s.advance i s.store .stopped).phase j).Idle →
        (s.advance i s.store .stopped).phase j = s.phase j := by
      intro j hj
      refine Overlap.advance_of_ne s (fun hji => hj ?_) _ _
      rw [hji, Overlap.advance_self]
      exact Or.inr (Or.inl rfl)
    refine ⟨fun j k hj hk => ?_, fun j hj => ?_⟩
    · exact h.one j k (hsame j hj ▸ hj) (hsame k hk ▸ hk)
    · have hsamej := hsame j hj
      rw [hsamej] at hj ⊢
      exact h.remembers j hj

/-- Then nothing recorded is lost. -/
theorem OneAtATime.recorded (h : OneAtATime ctx s) (hmove : Moves ctx s i move s')
    (hrec : Recorded ctx s.store name parent) : Recorded ctx s'.store name parent := by
  refine hmove.recorded hrec fun hw => ?_
  subst hw
  cases hmove with
  | writeMetadata now hphase =>
    have hm := h.remembers i (hphase ▸ not_idle_recording)
    rw [hphase] at hm ⊢
    obtain ⟨a, ha, hname⟩ := hrec
    exact Or.inr (Or.inr ⟨a, List.mem_cons_of_mem _ (hm ▸ ha), hname⟩)

theorem OneAtATime.run (h : OneAtATime ctx s) (hrun : Interleaved ctx WaitsForOthers s s') :
    OneAtATime ctx s' ∧
      ∀ name parent, Recorded ctx s.store name parent → Recorded ctx s'.store name parent := by
  induction hrun with
  | refl => exact ⟨h, fun _ _ hrec => hrec⟩
  | tail _ hstep ih =>
    obtain ⟨i, move, hmove, hwaits⟩ := hstep
    exact ⟨ih.1.next hmove hwaits,
      fun name parent hrec => ih.1.recorded hmove (ih.2 name parent hrec)⟩

/-! ## The runs of the program -/

/-- A run on its own, with its moves, has led from `s` to the store of `w`. -/
def Alone (ctx : VolumeContext) (i : ι) (s : Overlap ι) (w : World) : Prop :=
  ∃ s', Interleaved ctx (fun _ j _ => j = i) s s' ∧ s'.store = w.store ∧ (s'.phase i).Idle

theorem Alone.of_stop {w : World} (h : Interleaved ctx (fun _ j _ => j = i) s s')
    (hw : s'.store = w.store) : Alone ctx i s w := by
  refine ⟨s'.advance i s'.store .stopped, h.tail ⟨i, .stop, .stop, rfl⟩, hw, ?_⟩
  rw [Overlap.advance_self]
  exact Or.inr (Or.inl rfl)

/-- The moves of one step. -/
theorem executeStep_moves (H : IncrementalHash) (Z : StreamEncoder) (env : Env) {m : DestMeta}
    {step : RunStep} {rest : List RunStep} {w : World}
    (h : Interleaved ctx (fun _ j _ => j = i) s s') (hw : s'.store = w.store)
    (hphase : s'.phase i = .sending m (step :: rest)) :
    wp (executeStep H Z env ctx m step)
      (fun m' w' => ∃ s'', Interleaved ctx (fun _ j _ => j = i) s s'' ∧ s''.store = w'.store ∧
        s''.phase i = .sending m' rest)
      (fun _ w' => Alone ctx i s w') w := by
  have hsent : ∀ {stream : SendStream} {w₁ : World} (chunks : List ChunkFilename),
      Sending env ctx step stream w w₁ → Interleaved ctx (fun _ j _ => j = i) s
        (s'.advance i w₁.store (.recording m step chunks rest)) := by
    intro stream w₁ chunks hs
    exact h.tail ⟨i, .writeSubvolume, .writeSubvolume chunks hphase (hw ▸ hs.frame.store), rfl⟩
  have hrecorded : ∀ {stream : SendStream} {w₁ : World} (chunks : List ChunkFilename) (now : ℕ),
      Sending env ctx step stream w w₁ → Interleaved ctx (fun _ j _ => j = i) s
        ((s'.advance i w₁.store (.recording m step chunks rest)).advance i
          (update w₁.store (metaKey ctx.volume) (some (.metadata (m.after step chunks now))))
          (.sending (m.after step chunks now) rest)) := by
    intro stream w₁ chunks now hs
    exact (hsent chunks hs).tail
      ⟨i, .writeMetadata, .writeMetadata now (Overlap.advance_self ..), rfl⟩
  refine wp_mono (executeStep_spec H Z env ctx m step w) ?_ ?_
  · rintro m' w' ⟨stream, chunks, now, w₁, hs, rfl, htried, hp⟩
    refine ⟨_, hrecorded chunks now hs.toSending, ?_, Overlap.advance_self ..⟩
    rcases htried.store with hst | hst
    · rw [Overlap.advance_store, ← hst]
      exact update_eq_self_iff.mpr hp.symm
    · exact hst.symm
  · rintro _ w' ⟨stream, hs | ⟨chunks, now, w₁, hs, htried⟩⟩
    · exact .of_stop (hsent [] hs) rfl
    · rcases htried.store with hst | hst
      · exact .of_stop (hsent chunks hs.toSending) hst.symm
      · exact .of_stop (hrecorded chunks now hs.toSending) hst.symm

/-- A run over a volume, however it ends, makes moves of the interleaving. -/
theorem runVolume_moves (H : IncrementalHash) (Z : StreamEncoder) (env : Env) {w : World}
    (hw : s.store = w.store) (hphase : s.phase i = .waiting) :
    wp (runVolume H Z env ctx) (fun _ w' => Alone ctx i s w') (fun _ w' => Alone ctx i s w') w := by
  unfold runVolume
  simp only [wp_bind]
  refine wp_mono inspectDestVolume_returned ?_ fun _ w' he => he ▸ .of_stop .refl hw
  rintro dest w₁ ⟨rfl, hread, rfl⟩
  simp only [wp_liftExcept, wp_modify]
  refine ⟨fun plan hplan => ?_, fun _ _ => .of_stop .refl hw⟩
  unfold executePlan
  by_cases hempty : plan.steps.isEmpty = true
  · rw [if_pos hempty, wp_pure]
    exact .of_stop .refl hw
  · rw [if_neg hempty]
    simp only [wp_bind, wp_pure]
    have hloop : ∀ m w', Opens (destStateOn w.store ctx.volume) m → w'.store = w.store →
        wp (plan.steps.foldlM (executeStep H Z env ctx) m) (fun m' w'' => Alone ctx i s
          { w'' with remote := w''.remote.merge (ArchiveStats.fromMeta (some m')) })
          (fun _ w'' => Alone ctx i s w'') w' := by
      intro m w' hopen hw'
      let I : List RunStep → DestMeta → World → Prop := fun rest m w'' =>
        ∃ s', Interleaved ctx (fun _ j _ => j = i) s s' ∧ s'.store = w''.store ∧
          s'.phase i = .sending m rest
      have hstart : I plan.steps m w' := by
        rw [← hw] at hread hplan hopen
        exact ⟨_, .single ⟨i, .inspectDestVolume, .inspectDestVolume hphase hread hplan hopen, rfl⟩,
          hw.trans hw'.symm, Overlap.advance_self ..⟩
      refine wp_mono_ok (wp_foldlM (I := I) plan.steps m ?_ hstart) ?_
      · rintro step rest m w₁ ⟨s', hrun, hstore, hsending⟩
        exact executeStep_moves H Z env hrun hstore hsending
      · rintro m' w₁ ⟨s', hrun, hstore, hsending⟩
        exact ⟨s', hrun, hstore, Or.inr (Or.inr ⟨m', hsending⟩)⟩
    refine wp_mono openMeta_spec ?_ fun _ _ h => h.elim
    rintro m w₂ ⟨hopen, rfl | rfl⟩
    · exact hloop m _ hopen rfl
    · exact hloop m _ hopen rfl

/-! ## What is kept -/

/-- What is recorded at some moment is recorded, with the same parent, at every later one. -/
def KeepsRecorded (ctx : VolumeContext) (allowed : Overlap ι → ι → Move → Prop)
    (start : Overlap ι) : Prop :=
  ∀ s s' name parent, Interleaved ctx allowed start s → Recorded ctx s.store name parent →
    Interleaved ctx allowed s s' → Recorded ctx s'.store name parent

/-- An archive stays as long as no run writes metadata that had read the destination before
and did not know the archive when it was recorded. Nothing is lost when every run waits for
the others. -/
theorem overlap_keepsRecorded (ctx : VolumeContext) (start : Overlap ι)
    (hstart : ∀ i, start.phase i = .waiting) :
    (∀ s s' name parent, Interleaved ctx (fun _ _ _ => True) start s →
      Recorded ctx s.store name parent →
      Interleaved ctx
        (fun _ i move => move = .writeMetadata → (s.phase i).Harmless name parent) s s' →
      Recorded ctx s'.store name parent) ∧
    KeepsRecorded ctx WaitsForOthers start := by
  refine ⟨fun s s' name parent _ hrec hrun => (hrun.recorded hrec).1, ?_⟩
  intro s s' name parent hreach hrec hrun
  have hidle : ∀ i, (start.phase i).Idle := fun i => Or.inl (hstart i)
  have hone : OneAtATime ctx start :=
    ⟨fun i _ hi => absurd (hidle i) hi, fun i hi => absurd (hidle i) hi⟩
  exact ((hone.run hreach).1.run hrun).2 name parent hrec

end Moves

/-- A volume with two snapshots, nothing archived, and two runs that have not begun. -/
def sharedVolume : VolumeContext := ⟨.localDir, 1, "root", twoDaysSource, ⟨⟨7⟩, some 30⟩⟩

def bothWaiting : Overlap Bool := ⟨fun _ => none, fun _ => .waiting⟩

theorem overlap_keepsRecorded_bothWaiting :
    KeepsRecorded sharedVolume WaitsForOthers bothWaiting :=
  (overlap_keepsRecorded sharedVolume bothWaiting fun _ => rfl).2

/-- Both runs read the empty destination. One records both snapshots, then the other one
records the first. -/
theorem overlap_loses :
    WellFormed (destStateOn bothWaiting.store sharedVolume.volume).archives ∧
      ¬ KeepsRecorded sharedVolume (fun _ _ _ => True) bothWaiting := by
  refine ⟨.nil, fun hkeeps => ?_⟩
  let first : RunStep := .sendFull (.plain "20230101")
  let second : RunStep := .sendIncremental (.plain "20230102") (.plain "20230101")
  let m₀ := DestMeta.new 0 0 []
  have hplan : buildPlan sharedVolume.srcState (destStateOn (fun _ => none) sharedVolume.volume)
      sharedVolume.sendPolicy = .ok ⟨[first, second]⟩ := by decide +kernel
  have hread : Readable (fun _ => none) sharedVolume.volume := fun _ => by simp
  -- whenever the second run has read only the empty destination, it drops the second day
  have hdrops : ∀ s, Interleaved sharedVolume (fun _ _ _ => True) bothWaiting s →
      s.phase true = .sending m₀ [first, second] →
      ¬ Recorded sharedVolume s.store "20230102" (some "20230101") := by
    intro s hs hphase hrec
    have hsend : Moves sharedVolume s true .writeSubvolume _ :=
      .writeSubvolume [] hphase (.refl s.store)
    have hwrite : Moves sharedVolume _ true .writeMetadata _ :=
      .writeMetadata 0 (Overlap.advance_self s true s.store (.recording m₀ first [] [second]))
    have hknown := hwrite.recorded_iff.mp (hkeeps s _ "20230102" (some "20230101") hs hrec
      (((Interleaved.start sharedVolume s).next hsend).next hwrite))
    rw [Overlap.advance_self] at hknown
    obtain ⟨a, ha, hname, -⟩ := hknown
    obtain rfl : a = first.archive [] := by simpa [Phase.known, m₀] using ha
    exact absurd hname (by decide)
  -- both read, then the first run does all its steps
  have h₁ := (Interleaved.start sharedVolume bothWaiting).next
    (.inspectDestVolume (i := false) rfl hread hplan (Or.inr ⟨rfl, 0, rfl⟩))
  have h₂ := h₁.next (.inspectDestVolume (i := true) rfl hread hplan (Or.inr ⟨rfl, 0, rfl⟩))
  have h₃ := (h₂.next (.writeSubvolume (i := false) [] rfl (.refl _))).next
    (.writeMetadata (i := false) 0 rfl)
  have h₄ := (h₃.next (.writeSubvolume (i := false) [] rfl (.refl _))).next
    (.writeMetadata (i := false) 0 rfl)
  exact hdrops _ h₄ rfl (recorded_metadata.mpr ⟨_, mem_after.mpr (Or.inl rfl), rfl, rfl⟩)

end Bbkar
