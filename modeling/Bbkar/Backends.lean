import Bbkar.BackendWrites
import Bbkar.Remnants
import Bbkar.RestoreFrame
import Bbkar.RestoreIsolation

/-!
# Runs on two backends

A backup may go to a local directory or to object storage, and move from one to the other
between runs. Given the same answers, each run ends alike on either, also when it fails, and
both hold the same metadata and the same chunk files for it. So they restore alike.
-/
namespace Bbkar
open Codec Effects Function SendReceive

/-! ## The same backup -/

/-- The metadata is the same, and so is every chunk file that it lists. -/
structure SameBackup (store store' : Store) : Prop where
  metadata : ∀ v, store' (metaKey v) = store (metaKey v)
  names : ∀ v, SlashFree v → ∀ a ∈ (destStateOn store v).archives, SlashFree a.raw
  chunks : ∀ v, SlashFree v → ∀ a ∈ (destStateOn store v).archives, ∀ c ∈ a.chunks,
    store' (pathInSnapshot v a.raw c.filename) = store (pathInSnapshot v a.raw c.filename)

/-- What has been counted and stored so far is the same on both sides. -/
structure Alike (w w' : World) : Prop where
  calls : SameCalls w w'
  backup : SameBackup w.store w'.store
  sent : w'.sent = w.sent
  remote : w'.remote = w.remote
  totalBytesSent : w'.totalBytesSent = w.totalBytesSent

theorem Alike.tick {w w' : World} (h : Alike w w') : Alike w.tick w'.tick :=
  ⟨h.calls.tick, h.backup, h.sent, h.remote, h.totalBytesSent⟩

/-- Any file in the directory of a snapshot is a part of that snapshot or of none. -/
theorem partsOf_pathInSnapshot {v v' s s' name : String} (hv : SlashFree v)
    (hv' : SlashFree v') (hs : SlashFree s) (hs' : SlashFree s')
    (h : PartsOf v' s' (pathInSnapshot v s name)) : v' = v ∧ s' = s := by
  obtain ⟨n, h⟩ := h
  have hl := congrArg String.toList h
  rw [partKey, pathInSnapshot_toList hv' hs' (slashFree_partFilename n)] at hl
  simp only [pathInSnapshot, trimMatches_eq_self hv, trimMatches_eq_self hs,
    String.toList_append, List.append_assoc] at hl
  obtain ⟨hvol, hl⟩ := append_slash_inj hv hv' hl
  obtain ⟨hsnap, -⟩ := append_slash_inj hs hs' hl
  exact ⟨(String.toList_inj.mp hvol).symm, (String.toList_inj.mp hsnap).symm⟩

section Steps

variable {H : IncrementalHash} {Z : StreamEncoder} {env : Env} {ctx : VolumeContext}
  {m : DestMeta} {step : RunStep} {v s : String} {w w' u u' : World}

/-- The parts of an unlisted snapshot are no chunk files of the backup. -/
theorem SameBackup.writing {store store' store₁ store₁' : Store} (h : SameBackup store store')
    (hv : SlashFree v) (hs : SlashFree s) (hfresh : s ∉ raws (destStateOn store v).archives)
    (hd : DiffersAt (PartsOf v s) store store₁) (hd' : DiffersAt (PartsOf v s) store' store₁') :
    SameBackup store₁ store₁' := by
  have hmeta : ∀ v', store₁ (metaKey v') = store (metaKey v') :=
    fun v' => hd.outside _ (metaKey_not_part _ _ _)
  have hdest : ∀ v', destStateOn store₁ v' = destStateOn store v' :=
    fun v' => destStateOn_congr (hmeta v')
  refine ⟨fun v' => ?_, fun v' hv' a ha => ?_, fun v' hv' a ha c hc => ?_⟩
  · rw [hd'.outside _ (metaKey_not_part _ _ _), h.metadata, hmeta]
  · rw [hdest] at ha
    exact h.names v' hv' a ha
  · rw [hdest] at ha
    have hout : ¬ PartsOf v s (pathInSnapshot v' a.raw c.filename) := by
      intro hpart
      obtain ⟨rfl, rfl⟩ := partsOf_pathInSnapshot hv' hv (h.names v' hv' a ha) hs hpart
      exact hfresh (mem_raws.mpr ⟨a, ha, rfl⟩)
    rw [hd.outside _ hout, hd'.outside _ hout]
    exact h.chunks v' hv' a ha c hc

/-- New metadata may list a snapshot whose parts are the same on both sides. -/
theorem SameBackup.recorded {store store' : Store} (h : SameBackup store store')
    (hv : SlashFree v) {m' : DestMeta} {a : VolumeArchive}
    (harchives : m'.archives.Perm (a :: (destStateOn store v).archives))
    (hname : SlashFree a.raw) (hchunks : ∀ c ∈ a.chunks,
      store' (pathInSnapshot v a.raw c.filename) = store (pathInSnapshot v a.raw c.filename)) :
    SameBackup (update store (metaKey v) (some (.metadata m')))
      (update store' (metaKey v) (some (.metadata m'))) := by
  have hsame : ∀ key, store' key = store key →
      update store' (metaKey v) (some (.metadata m')) key =
        update store (metaKey v) (some (.metadata m')) key := by
    intro key hkey
    by_cases hk : key = metaKey v
    · rw [hk, update_self, update_self]
    · rw [update_of_ne hk, update_of_ne hk, hkey]
  have hlisted : ∀ v', SlashFree v' →
      ∀ b ∈ (destStateOn (update store (metaKey v) (some (.metadata m'))) v').archives,
        (v' = v ∧ b = a) ∨ b ∈ (destStateOn store v').archives := by
    intro v' hv' b hb
    by_cases hvol : v' = v
    · subst hvol
      have hp : Persisted (update store (metaKey v') (some (.metadata m'))) v' m' := by
        simp [Persisted]
      rw [destStateOn_persisted hp] at hb
      have hb := harchives.mem_iff.mp hb
      rcases List.mem_cons.mp hb with rfl | hb
      · exact Or.inl ⟨rfl, rfl⟩
      · exact Or.inr hb
    · rw [destStateOn_congr (update_of_ne (fun heq => hvol (metaKey_inj hv' hv heq)) _ _)] at hb
      exact Or.inr hb
  refine ⟨fun v' => hsame _ (h.metadata v'), fun v' hv' b hb => ?_, fun v' hv' b hb c hc => ?_⟩
  · rcases hlisted v' hv' b hb with ⟨rfl, rfl⟩ | hb
    · exact hname
    · exact h.names v' hv' b hb
  · apply hsame
    rcases hlisted v' hv' b hb with ⟨rfl, rfl⟩ | hb
    · exact hchunks c hc
    · exact h.chunks v' hv' b hb c hc

/-- Reading a stream and asking the clock give the same answers. -/
theorem paired_ask {α : Type} {answer : ℕ → α} {Q : α → World → α → World → Prop}
    {E : World → World → Prop} (h : SameCalls w w')
    (hQ : Q (answer w.calls) w.tick (answer w.calls) w'.tick) :
    Paired Q E (ask answer) (ask answer) w w' := by
  have hcalls : w'.calls = w.calls := h
  unfold Paired
  simp only [wp_ask, hcalls]
  exact hQ

theorem paired_readSubvolume {E : World → World → Prop} (h : SameCalls w w') :
    Paired (fun stream u stream' u' => stream' = stream ∧ u = w.tick ∧ u' = w'.tick) E
      (readSubvolume env v step) (readSubvolume env v step) w w' := by
  unfold readSubvolume
  cases step with
  | sendFull snap => exact paired_ask h ⟨rfl, rfl, rfl⟩
  | sendIncremental snap parent => exact paired_ask h ⟨rfl, rfl, rfl⟩

/-- Either side may have replaced its metadata, and then both have. -/
theorem Alike.writeMetadata (h : Alike w w') (hv : SlashFree v) {m' : DestMeta}
    {a : VolumeArchive} (harchives : m'.archives.Perm (a :: (destStateOn w.store v).archives))
    (hname : SlashFree a.raw) (hchunks : ∀ c ∈ a.chunks,
      w'.store (pathInSnapshot v a.raw c.filename) = w.store (pathInSnapshot v a.raw c.filename)) :
    Paired (fun _ u _ u' => Alike u u') Alike (writeMetadata env v m') (writeMetadata env v m')
      w w' := by
  have hcalls : w'.calls = w.calls := h.calls
  have hrecorded := h.backup.recorded hv harchives hname hchunks
  unfold Paired Bbkar.writeMetadata
  simp only [wp_bind, wp_get, wp_modify, hcalls]
  cases env.fault w.calls with
  | none => exact ⟨h.calls.tick, hrecorded, h.sent, h.remote, h.totalBytesSent⟩
  | some e =>
    simp only [wp_bind, wp_modify, wp_throw, true_and]
    cases env.persisted w.calls with
    | true => exact ⟨h.calls.tick, hrecorded, h.sent, h.remote, h.totalBytesSent⟩
    | false => exact ⟨h.calls.tick, h.backup, h.sent, h.remote, h.totalBytesSent⟩

/-- While a snapshot is written, and when that has failed, the backups are the same. -/
theorem Alike.writing (h : Alike w w') (hv : SlashFree v) (hs : SlashFree s)
    (hfresh : s ∉ raws (destStateOn w.store v).archives) {stream : SendStream}
    (hf : OnlyParts (PartsOf v s) (w.sending v s stream) u)
    (hf' : OnlyParts (PartsOf v s) (w'.sending v s stream) u') (hcalls : SameCalls u u') :
    Alike u u' := by
  obtain ⟨hsent, hremote, htotal⟩ := hf.stats
  obtain ⟨hsent', hremote', htotal'⟩ := hf'.stats
  refine ⟨hcalls, h.backup.writing hv hs hfresh hf.store hf'.store, ?_, ?_, ?_⟩
  · rw [hsent, hsent']
    exact h.sent
  · rw [hremote, hremote']
    exact h.remote
  · rw [htotal, htotal']
    exact h.totalBytesSent

/-- What writing a snapshot returns on both sides, with the files of its chunks. -/
structure Written (v s : String) (w : World) (chunks : List ChunkFilename) (u u' : World) :
    Prop where
  alike : Alike u u'
  dest : destStateOn u.store v = destStateOn w.store v
  chunks : ∀ c ∈ chunks,
    u'.store (pathInSnapshot v s c.filename) = u.store (pathInSnapshot v s c.filename)

theorem Alike.writeSubvolume (h : Alike w w') (hv : SlashFree v) (hs : SlashFree s)
    (hfresh : s ∉ raws (destStateOn w.store v).archives) (backend backend' : BackendSpec)
    (maxMib : ℕ) (stream : SendStream) :
    Paired (fun out u out' u' => out' = out ∧ Written v s w out.1 u u') Alike
      (writeSubvolume H Z env backend v s maxMib stream)
      (writeSubvolume H Z env backend' v s maxMib stream) w w' := by
  refine Paired.mono (Paired.and
    (paired_writeSubvolume (H := H) (Z := Z) backend backend' maxMib stream h.calls)
    (writeSubvolume_spec backend maxMib stream w)
    (writeSubvolume_spec backend' maxMib stream w')) ?_ ?_
  · rintro out u out' u' ⟨⟨hcalls, rfl, parts, hparts, hstored, hstored'⟩, hside, hside'⟩
    refine ⟨rfl, h.writing hv hs hfresh hside.1 hside'.1 hcalls, ?_, fun c hc => ?_⟩
    · exact destStateOn_congr (hside.1.store.outside _ (metaKey_not_part _ _ _))
    · rw [hparts] at hc
      obtain ⟨p, hp, rfl⟩ := List.mem_map.mp hc
      exact (hstored'.files p hp).trans (hstored.files p hp).symm
  · rintro u u' ⟨hcalls, ⟨-, hf⟩, -, hf'⟩
    exact h.writing hv hs hfresh hf hf' hcalls

/-- One step on two backends. -/
theorem Alike.executeStep (h : Alike w w') (backend : BackendSpec)
    (hv : SlashFree ctx.volume) (hs : SlashFree step.snap.raw)
    (hl : Link ctx.volume m w.store) (hfresh : step.snap.raw ∉ raws m.archives) :
    Paired (fun m₁ u m₁' u' => m₁' = m₁ ∧ Alike u u') Alike (executeStep H Z env ctx m step)
      (executeStep H Z env { ctx with backend := backend } m step) w w' := by
  rw [← hl.destStateOn_archives] at hfresh
  unfold Bbkar.executeStep
  apply Paired.bind (paired_readSubvolume h.calls)
  rintro stream _ _ _ ⟨rfl, rfl, rfl⟩
  apply Paired.bind (h.tick.writeSubvolume hv hs hfresh ctx.backend backend _ _)
  rintro _ u out u' ⟨rfl, halike, hdest, hchunks⟩
  -- the counters and the clock
  let archive := step.archive out.1
  have hcounted : Alike (u.counted archive) (u'.counted archive) := by
    refine ⟨halike.calls, halike.backup, ?_, halike.remote, ?_⟩
    · exact congrArg (·.addArchive archive) halike.sent
    · exact congrArg (· + archive.totalSize) halike.totalBytesSent
  refine Paired.bind (Q := fun _ v _ v' => v = u.counted archive ∧ v' = u'.counted archive)
    ⟨rfl, rfl⟩ ?_
  rintro _ _ _ _ ⟨rfl, rfl⟩
  refine Paired.bind (Q := fun now v now' v' => now' = now ∧ v = (u.counted archive).tick ∧
    v' = (u'.counted archive).tick) (paired_ask hcounted.calls ⟨rfl, rfl, rfl⟩) ?_
  rintro _ _ now _ ⟨rfl, rfl, rfl⟩
  have harchives : (m.after step out.1 now).archives.Perm
      (archive :: (destStateOn (u.counted archive).tick.store ctx.volume).archives) := by
    change List.Perm _ (archive :: (destStateOn u.store ctx.volume).archives)
    rw [hdest]
    change List.Perm _ (archive :: (destStateOn w.store ctx.volume).archives)
    rw [hl.destStateOn_archives]
    exact m.addArchive_perm archive
  apply Paired.bind (hcounted.tick.writeMetadata hv harchives hs hchunks)
  exact fun _ _ _ _ h' => ⟨rfl, h'⟩

/-! ## Volumes -/

/-- The loop over the steps of a plan. -/
theorem Alike.executeSteps {steps : List RunStep} (h : Alike w w') (backend : BackendSpec)
    (hv : SlashFree ctx.volume) (hsnaps : ∀ s ∈ ctx.srcState.snapshots, SlashFree s.raw)
    (hl : Link ctx.volume m w.store)
    (hrest : Remaining False ctx.sendPolicy ctx.srcState m.archives steps) :
    Paired (fun m₁ u m₁' u' => m₁' = m₁ ∧ Alike u u') Alike
      (steps.foldlM (Bbkar.executeStep H Z env ctx) m)
      (steps.foldlM (Bbkar.executeStep H Z env { ctx with backend := backend }) m) w w' := by
  refine Paired.mono (paired_foldlM (I := fun rest m u m' u' => m' = m ∧ Alike u u' ∧
    Link ctx.volume m u.store ∧ Remaining False ctx.sendPolicy ctx.srcState m.archives rest)
    steps ?_ ⟨rfl, h, hl, hrest⟩) (fun _ _ _ _ hq => ⟨hq.1, hq.2.1⟩) fun _ _ he => he
  rintro step rest m w _ w' ⟨rfl, h, hl, hrest⟩
  obtain ⟨hfits, hnext⟩ := hrest.uncons
  refine Paired.mono (Paired.and
    (h.executeStep backend hv (hsnaps _ hfits.snap_mem) hl hfits.fresh)
    (executeStep_spec H Z env ctx _ step w) wp_true) ?_ fun _ _ he => he.1
  rintro m₁ u _ u' ⟨⟨rfl, halike⟩, ⟨stream, chunks, now, w₁, -, rfl, -, hp⟩, -⟩
  exact ⟨rfl, halike, Or.inl hp, (hnext chunks).perm (DestMeta.addArchive_perm _ _).symm⟩

theorem Alike.openMeta {dest : DestState} (h : Alike w w') :
    Paired (fun m u m' u' => m' = m ∧ Alike u u' ∧ Opens dest m ∧ u.store = w.store) Alike
      (openMeta env dest) (openMeta env dest) w w' := by
  unfold Bbkar.openMeta
  cases hm : dest.destMeta with
  | none => exact paired_ask h.calls ⟨rfl, h.tick, Or.inr ⟨hm, _, rfl⟩, rfl⟩
  | some m => exact ⟨rfl, h, Or.inl hm, rfl⟩

theorem Alike.inspectDestVolume (h : Alike w w') :
    Paired (fun dest u dest' u' => dest' = dest ∧ Alike u u' ∧ dest = destStateOn w.store v ∧
        Readable w.store v ∧ u.store = w.store) Alike
      (inspectDestVolume env v) (inspectDestVolume env v) w w' := by
  have hread : Paired (fun dest u dest' u' => dest' = dest ∧ Alike u u') Alike
      (Bbkar.inspectDestVolume env v) (Bbkar.inspectDestVolume env v) w w' := by
    unfold Bbkar.inspectDestVolume
    apply paired_afterCall h.calls _ h.tick
    unfold Paired
    simp only [wp_bind, wp_get, World.tick_store, h.backup.metadata]
    cases w.store (metaKey v) with
    | none => exact ⟨rfl, h.tick⟩
    | some blob =>
      cases blob with
      | part bytes => exact ⟨rfl, h.tick⟩
      | metadata m => exact ⟨rfl, h.tick⟩
  refine Paired.mono (hread.and inspectDestVolume_returned wp_true) ?_ fun _ _ he => he.1
  rintro dest u dest' u' ⟨⟨rfl, halike⟩, ⟨hdest, hreadable, rfl⟩, -⟩
  exact ⟨rfl, halike, hdest, hreadable, rfl⟩

theorem Alike.runVolume (h : Alike w w') (backend : BackendSpec) (hv : SlashFree ctx.volume)
    (hsnaps : ∀ s ∈ ctx.srcState.snapshots, SlashFree s.raw) :
    Paired (fun _ u _ u' => Alike u u') Alike (runVolume H Z env ctx)
      (runVolume H Z env { ctx with backend := backend }) w w' := by
  unfold Bbkar.runVolume
  apply h.inspectDestVolume.bind
  rintro _ w₁ dest w₁' ⟨rfl, h₁, hdest, hread, hstore⟩
  refine Paired.bind (Q := fun plan u plan' u' => plan' = plan ∧ u = w₁ ∧ u' = w₁' ∧
    buildPlan ctx.srcState dest ctx.sendPolicy = .ok plan) (paired_liftExcept
      (fun plan hplan => ⟨rfl, rfl, rfl, hplan⟩) h₁) ?_
  rintro _ _ plan _ ⟨rfl, rfl, rfl, hplan⟩
  refine Paired.bind (Q := fun m u m' u' => m' = m ∧ Alike u u') ?_ ?_
  · unfold executePlan
    split_ifs
    · exact ⟨rfl, h₁⟩
    · apply h₁.openMeta.bind
      rintro _ w₂ m w₂' ⟨rfl, h₂, hopen, hstore₂⟩
      have hl : Link ctx.volume m w₂.store := by
        rw [hstore₂, hstore]
        rcases hopen with hm | ⟨hnone, now, rfl⟩
        · exact Or.inl (persisted_of_destMeta (hdest ▸ hm))
        · exact Or.inr ⟨hread.eq_none (hdest ▸ hnone), rfl⟩
      have hrest : Remaining False ctx.sendPolicy ctx.srcState m.archives plan.steps := by
        rw [hopen.archives_eq]
        exact Remaining.of_buildPlan hplan False.elim
      apply (h₂.executeSteps backend hv hsnaps hl hrest).bind
      rintro _ u m' u' ⟨rfl, h'⟩
      exact ⟨rfl, h'⟩
  · rintro _ u m u' ⟨rfl, h'⟩
    exact ⟨h'.calls, h'.backup, h'.sent,
      congrArg (·.merge (ArchiveStats.fromMeta m)) h'.remote, h'.totalBytesSent⟩

end Steps

/-! ## Runs -/

section Runs

variable {H : IncrementalHash} {Z : StreamEncoder} {env : Env} {config : Config}
  {w w' : World}

theorem Alike.runSync (h : Alike w w') (backend : BackendSpec) {sync : SyncSpec}
    (hsync : config.sync = some sync)
    (hnames : ∀ ctx, Visits env config ctx →
      SlashFree ctx.volume ∧ ∀ s ∈ ctx.srcState.snapshots, SlashFree s.raw) :
    Paired (fun _ u _ u' => Alike u u') Alike (runSync H Z env config sync)
      (runSync H Z env { config with backend := backend } sync) w w' := by
  unfold Bbkar.runSync
  refine Paired.bind (Q := fun _ u _ u' => Alike u u')
    ⟨h.calls, h.backup, rfl, rfl, h.totalBytesSent⟩ fun _ w₁ _ w₁' h₁ => ?_
  apply paired_afterCall h₁.calls _ h₁.tick
  refine Paired.bind (Q := fun states u states' u' => states' = states ∧ Alike u u' ∧
    env.inspectSource = .ok states) (paired_liftExcept
      (fun states hstates => ⟨rfl, h₁.tick, hstates⟩) h₁.tick) ?_
  rintro _ w₂ states w₂' ⟨rfl, h₂, hstates⟩
  refine paired_forM states (fun state hstate u u' hu => ?_) h₂
  split_ifs with hfilter
  · have hvisit : Visits env config ⟨config.backend, config.maxBackupChunkSize, state.1, state.2,
        sync.send⟩ :=
      ⟨sync, states, hsync, hstates, hstate, hfilter, rfl, rfl, rfl⟩
    obtain ⟨hv, hsnaps⟩ := hnames _ hvisit
    exact hu.runVolume backend hv hsnaps
  · exact hu

/-- One run on two backends. -/
theorem Alike.run (h : Alike w w') (backend : BackendSpec) (name : Option String)
    (hnames : ∀ ctx, Visits env config ctx →
      SlashFree ctx.volume ∧ ∀ s ∈ ctx.srcState.snapshots, SlashFree s.raw) :
    Paired (fun _ u _ u' => Alike u u') Alike (run H Z env config name)
      (run H Z env { config with backend := backend } name) w w' := by
  unfold Bbkar.run
  refine Paired.bind (Q := fun _ u _ u' => Alike u u')
    ⟨h.calls, h.backup, h.sent, h.remote, rfl⟩ fun _ w₁ _ w₁' h₁ => ?_
  simp only
  cases hs : config.sync with
  | none =>
    cases name with
    | none => exact h₁
    | some name => exact ⟨by simp [syncNotFound, hs], h₁⟩
  | some sync =>
    cases name with
    | none => exact h₁.runSync backend hs hnames
    | some name =>
      simp only
      split_ifs
      · exact h₁.runSync backend hs hnames
      · exact ⟨by simp [syncNotFound, hs], h₁⟩

/-- The run with another backend in its configuration. -/
def Invocation.onBackend (i : Invocation) (backend : BackendSpec) : Invocation :=
  { i with config := { i.config with backend := backend } }

/-- How the runs of a history end. -/
def results (H : IncrementalHash) (Z : StreamEncoder) :
    List Invocation → World → List (Except Halt Unit)
  | [], _ => []
  | i :: runs, w => (outcome (i.run H Z) w).1 :: results H Z runs (outcome (i.run H Z) w).2

theorem Alike.history (moved : List (Invocation × BackendSpec)) (h : Alike w w')
    (hnames : ∀ p ∈ moved, ∀ ctx, Visits p.1.env p.1.config ctx →
      SlashFree ctx.volume ∧ ∀ s ∈ ctx.srcState.snapshots, SlashFree s.raw) :
    results H Z (moved.map fun p => p.1.onBackend p.2) w' = results H Z (moved.map Prod.fst) w ∧
      Alike (history H Z (moved.map Prod.fst) w)
        (history H Z (moved.map fun p => p.1.onBackend p.2) w') := by
  induction moved generalizing w w' with
  | nil => exact ⟨rfl, h⟩
  | cons p moved ih =>
    have hrun : Paired (fun _ u _ u' => Alike u u') Alike (p.1.run H Z)
        ((p.1.onBackend p.2).run H Z) w w' :=
      h.run p.2 p.1.name (hnames p (by simp))
    have hrest : ∀ q ∈ moved, ∀ ctx, Visits q.1.env q.1.config ctx →
        SlashFree ctx.volume ∧ ∀ s ∈ ctx.srcState.snapshots, SlashFree s.raw :=
      fun q hq => hnames q (List.mem_cons_of_mem _ hq)
    -- the results agree, and so do the worlds that the next run starts from
    have hends : (outcome ((p.1.onBackend p.2).run H Z) w').1 = (outcome (p.1.run H Z) w).1 ∧
        Alike (outcome (p.1.run H Z) w).2 (outcome ((p.1.onBackend p.2).run H Z) w').2 := by
      rcases hrun.cases with ⟨_, _, u, u', hx, hy, h'⟩ | ⟨e, u, u', hx, hy, h'⟩
      · rw [hx, hy]
        exact ⟨rfl, h'⟩
      · rw [hx, hy]
        exact ⟨rfl, h'⟩
    obtain ⟨hresults, halike⟩ := ih hends.2 hrest
    refine ⟨?_, halike⟩
    rw [List.map_cons, List.map_cons, results, results, hends.1, hresults]

end Runs

/-! ## Plain objects -/

section PlainObjects

variable {H : IncrementalHash} {Z : StreamEncoder} {env : Env} {ctx : VolumeContext}
  {start : Store} {w w' : World}

/-- The metadata lists files with plain names, and what was changed has a plain path. -/
structure PlainObjects (start store : Store) : Prop where
  listed : ∀ v, SlashFree v → ∀ a ∈ (destStateOn store v).archives,
    PlainName a.raw ∧ ∀ c ∈ a.chunks, PlainFile c.filename
  changed : ∀ key, store key ≠ start key → PlainKey key

theorem plainObjects_observes (start : Store) : Observes fun w => PlainObjects start w.store := by
  intro w w' hstore _ h
  rwa [hstore]

theorem PlainObjects.sending (h : PlainObjects start w.store) (hv : PlainVolume ctx.volume)
    {step : RunStep} {stream : SendStream} (hsnap : PlainName step.snap.raw)
    (hs : Sending env ctx step stream w w') : PlainObjects start w'.store := by
  refine ⟨fun v hslash => ?_, fun key hkey => ?_⟩
  · rw [destStateOn_congr (hs.metadata v)]
    exact h.listed v hslash
  · by_cases hpart : PartsOf ctx.volume step.snap.raw key
    · obtain ⟨n, rfl⟩ := hpart
      exact Or.inr ⟨ctx.volume, step.snap.raw, n, hv, hsnap, rfl⟩
    · have hsame : w'.store key = w.store key := hs.frame.store.outside key hpart
      exact h.changed key (by rwa [← hsame])

/-- The chunks of a snapshot that was sent are its part files. -/
theorem Sent.plainFiles {step : RunStep} {stream : SendStream} {chunks : List ChunkFilename}
    (hs : Sent H Z env ctx step stream chunks w w') : ∀ c ∈ chunks, PlainFile c.filename := by
  obtain ⟨parts, rfl, hstored, -⟩ := hs.stored
  intro c hc
  obtain ⟨p, hp, rfl⟩ := List.mem_map.mp hc
  have hname : p.1.filename ∈ (List.range' 1 parts.length).map partFilename := by
    rw [← hstored.names]
    exact List.mem_map_of_mem hp
  obtain ⟨n, -, hn⟩ := List.mem_map.mp hname
  rw [← hn]
  exact plainFile_partFilename n

theorem PlainObjects.tried (h : PlainObjects start w.store) (hv : PlainVolume ctx.volume)
    {m : DestMeta} {step : RunStep} {stream : SendStream} {chunks : List ChunkFilename} {now : ℕ}
    {w₁ : World} (hl : Link ctx.volume m w.store) (hsnap : PlainName step.snap.raw)
    (hs : Sent H Z env ctx step stream chunks w w₁)
    (ht : MetaTried ctx.volume (m.after step chunks now) w₁ w') : PlainObjects start w'.store := by
  have h₁ := h.sending hv hsnap hs.toSending
  rcases ht.store with hstore | hstore
  · rwa [hstore]
  · refine ⟨fun v hslash a ha => ?_, fun key hkey => ?_⟩
    · by_cases hvol : v = ctx.volume
      · subst hvol
        have hnew : (destStateOn w'.store ctx.volume).archives =
            (m.after step chunks now).archives :=
          Link.destStateOn_archives (Or.inl (by rw [hstore]; simp [Persisted]))
        rw [hnew] at ha
        rcases (m.mem_addArchive (step.archive chunks) a).mp ha with rfl | ha
        · exact ⟨hsnap, hs.plainFiles⟩
        · rw [← hl.destStateOn_archives] at ha
          exact h.listed _ hslash a ha
      · have hkey : metaKey v ≠ metaKey ctx.volume :=
          fun he => hvol (metaKey_inj hslash hv.slashFree he)
        have hother : w'.store (metaKey v) = w₁.store (metaKey v) := by
          rw [hstore, update_of_ne hkey]
        rw [destStateOn_congr hother] at ha
        exact h₁.listed v hslash a ha
    · by_cases hmeta : key = metaKey ctx.volume
      · exact Or.inl ⟨ctx.volume, hv, hmeta⟩
      · rw [hstore, update_of_ne hmeta] at hkey
        exact h₁.changed key hkey

theorem keepsSteps_plainObjects (hv : PlainVolume ctx.volume)
    (hsnaps : ∀ s ∈ ctx.srcState.snapshots, PlainName s.raw) :
    KeepsSteps False H Z env ctx (fun w => PlainObjects start w.store)
      (fun w => PlainObjects start w.store) := by
  refine .invariant False.elim ?_ ?_
  · intro m step stream w w' hw hl hf hs
    exact hw.sending hv (hsnaps _ hf.snap_mem) hs
  · intro m step stream chunks now w w₁ w' hw hl hf hs ht
    exact hw.tried hv hl (hsnaps _ hf.snap_mem) hs ht

theorem history_plainObjects (runs : List Invocation)
    (hnames : ∀ i ∈ runs, ∀ ctx, Visits i.env i.config ctx →
      PlainVolume ctx.volume ∧ ∀ s ∈ ctx.srcState.snapshots, PlainName s.raw)
    (h : PlainObjects start w.store) : PlainObjects start (history H Z runs w).store := by
  refine history_invariant (plainObjects_observes start) runs (fun i hi ctx hctx => ?_) h
  obtain ⟨hv, hsnaps⟩ := hnames i hi ctx hctx
  exact runVolume_preserves (plainObjects_observes start) (keepsSteps_plainObjects hv hsnaps)

end PlainObjects

/-! ## Restores -/

section Restores

variable {C : Type} {Z : StreamCodec} {T : Transfer String C Bytes} {w w' : World}

/-- What a restore of the volume reads. -/
def RestoreKey (store : Store) (volume key : String) : Prop :=
  key = metaKey volume ∨ ∃ a ∈ (destStateOn store volume).archives, ∃ c ∈ a.chunks,
    key = pathInSnapshot volume a.raw c.filename

theorem lockstep_inspectKept {K : String → Prop} {store store' : Store} {volume : String}
    (env : Env) (hK : K (metaKey volume)) :
    Lockstep (AgreeOn K store store')
      (fun dest dest' => dest' = dest ∧ dest = destStateOn store volume)
      (inspectDestVolume env volume) (inspectDestVolume env volume) := by
  unfold inspectDestVolume
  apply lockstep_bind (agreeOn_views.lockstep_call env)
  intro _ _ _
  apply lockstep_bind lockstep_get
  intro u u' hu
  rw [agreeOn_views.objects u u' hu _ hK, destStateOn, ← hu.left]
  cases u.store (metaKey volume) with
  | none => exact lockstep_pure ⟨rfl, rfl⟩
  | some blob =>
    cases blob with
    | part bytes => exact lockstep_throw _
    | metadata m => exact lockstep_pure ⟨rfl, by simp⟩

/-- Restores that find the objects of either world through the library end the same. -/
def RestoresAlike (normalizePath : String → String) (Z : StreamCodec)
    (T : Transfer String C Bytes) (w w' : World) : Prop :=
  ∀ env volume snapshots lo hi root, PlainVolume volume →
    let here := outcome (restore Z T env volume snapshots lo hi)
      ⟨w.through normalizePath, root, []⟩
    let there := outcome (restore Z T env volume snapshots lo hi)
      ⟨w'.through normalizePath, root, []⟩
    there.1 = here.1 ∧ there.2.root = here.2.root ∧ there.2.receives = here.2.receives

/-- Restores end the same where all objects that one of them reads are the same. -/
theorem restore_congr {env : Env} {volume : String} {snapshots : List String}
    {lo hi : Option String} {root : Root String C} (hcalls : SameCalls w w')
    (hagree : ∀ key, RestoreKey w.store volume key → w'.store key = w.store key) :
    let here := outcome (restore Z T env volume snapshots lo hi) ⟨w, root, []⟩
    let there := outcome (restore Z T env volume snapshots lo hi) ⟨w', root, []⟩
    there.1 = here.1 ∧ there.2.root = here.2.root ∧ there.2.receives = here.2.receives := by
  let K := RestoreKey w.store volume
  let R := AgreeOn K w.store w'.store
  have hstart : SameRestoring R (⟨w, root, []⟩ : Restoring C) ⟨w', root, []⟩ :=
    ⟨⟨hcalls, rfl, rfl, hagree⟩, rfl, rfl⟩
  have hinspect : Lockstep R (fun dest dest' => dest' = dest ∧ dest = destStateOn w.store volume)
      (Bbkar.inspectDestVolume env volume) (Bbkar.inspectDestVolume env volume) :=
    lockstep_inspectKept env (Or.inl rfl)
  have hrestore : InStep (SameRestoring R) Eq (restore Z T env volume snapshots lo hi)
      (restore Z T env volume snapshots lo hi) ⟨w, root, []⟩ ⟨w', root, []⟩ := by
    rw [← restoreBeside_idle]
    apply agreeOn_views.restoreBeside_inStep Z T env
      ((lockstep_onWorld (C := C) hinspect).inStep hstart)
    rintro _ _ entries ⟨rfl, rfl⟩
    cases hplan : prepareRestore volume (destStateOn w.store volume) entries snapshots lo hi with
    | error e => exact Or.inr ⟨e, rfl, rfl⟩
    | ok plan =>
      refine Or.inl ⟨plan, plan, rfl, rfl, rfl, rfl, rfl, fun _ _ => rfl, ?_⟩
      intro step _ a ha c hc
      have hm := destStateOn_persisted (persisted_of_destMeta (prepareRestore_destMeta hplan))
      rw [(prepareRestore_ok hplan).1]
      refine Or.inr ⟨a, ?_, c, hc, rfl⟩
      rw [hm]
      exact List.mem_of_find?_eq_some ha
  rcases hrestore.cases with ⟨_, _, st, st', hx, hy, rfl, hst⟩ | ⟨e, st, st', hx, hy, hst⟩
  · simp only [hx, hy]
    exact ⟨trivial, hst.root, hst.receives⟩
  · simp only [hx, hy]
    exact ⟨trivial, hst.root, hst.receives⟩

/-- The library keeps the paths of all objects that a restore reads. -/
theorem Alike.restores {normalizePath : String → String} (hpath : KeepsPlain normalizePath)
    (h : Alike w w') (hlisted : ∀ v, SlashFree v → ∀ a ∈ (destStateOn w.store v).archives,
      PlainName a.raw ∧ ∀ c ∈ a.chunks, PlainFile c.filename) :
    RestoresAlike normalizePath Z T w w' := by
  intro env volume snapshots lo hi root hv
  have hcalls : SameCalls (w.through normalizePath) (w'.through normalizePath) := h.calls
  apply restore_congr hcalls
  rintro key (rfl | ⟨a, ha, c, hc, rfl⟩)
  · rw [through_metaKey hpath hv, through_metaKey hpath hv]
    exact h.backup.metadata volume
  · rw [destStateOn_through hpath hv] at ha
    obtain ⟨hraw, hfiles⟩ := hlisted volume hv.slashFree a ha
    change w'.store (normalizePath _) = w.store (normalizePath _)
    rw [hpath _ (plainPath_pathInSnapshot hv hraw (hfiles c hc))]
    exact h.backup.chunks volume hv.slashFree a ha c hc

end Restores

/-- How the runs of a history end that read through the library. -/
def resultsAt (normalizePath : String → String) (H : IncrementalHash) (Z : StreamEncoder) :
    List Invocation → World → List (Except Halt Unit)
  | [], _ => []
  | i :: runs, w => (outcome (i.runAt normalizePath H Z) w).1 ::
    resultsAt normalizePath H Z runs (outcome (i.runAt normalizePath H Z) w).2

theorem resultsAt_plain {normalizePath : String → String} (hpath : KeepsPlain normalizePath)
    {H : IncrementalHash} {Z : StreamEncoder} (runs : List Invocation)
    (hv : ∀ i ∈ runs, ∀ ctx, Visits i.env i.config ctx → PlainVolume ctx.volume) (w : World) :
    resultsAt normalizePath H Z runs w = results H Z runs w := by
  induction runs generalizing w with
  | nil => rfl
  | cons i runs ih =>
    have hrun : i.runAt normalizePath H Z = i.run H Z :=
      runAt_plain hpath i.name (hv i (by simp))
    rw [resultsAt, results, hrun, ih fun j hj => hv j (List.mem_cons_of_mem _ hj)]

theorem Visits.of_onBackend {i : Invocation} {backend : BackendSpec} {ctx : VolumeContext}
    (h : Visits (i.onBackend backend).env (i.onBackend backend).config ctx) :
    Visits i.env i.config { ctx with backend := i.config.backend } := by
  obtain ⟨sync, states, hsync, hstates, hmem, hfilter, -, hsize, hpolicy⟩ := h.visit
  exact ⟨sync, states, hsync, hstates, hmem, hfilter, rfl, hsize, hpolicy⟩

/-- The runs of a history end alike when each of them goes to another backend, also those that
fail. Afterwards the metadata and the chunk files that it lists are the same, as are the
totals, and so is every restore. All reading goes through a library that keeps plain paths,
and whatever was written is found by it, in a directory and in object storage. -/
theorem backends_agree {C : Type} (normalizePath : String → String)
    (hpath : KeepsPlain normalizePath) (H : IncrementalHash) (Z : StreamCodec)
    (T : Transfer String C Bytes) (moved : List (Invocation × BackendSpec)) (store : Store)
    (hstore : ∀ v, SlashFree v → ∀ a ∈ (destStateOn store v).archives,
      PlainName a.raw ∧ ∀ c ∈ a.chunks, PlainFile c.filename)
    (hnames : ∀ p ∈ moved, ∀ ctx, Visits p.1.env p.1.config ctx →
      PlainVolume ctx.volume ∧ ∀ s ∈ ctx.srcState.snapshots, PlainName s.raw) :
    let here := moved.map Prod.fst
    let there := moved.map fun p => p.1.onBackend p.2
    let w := historyAt normalizePath H Z.toStreamEncoder here (World.start store)
    let w' := historyAt normalizePath H Z.toStreamEncoder there (World.start store)
    resultsAt normalizePath H Z.toStreamEncoder there (World.start store) =
        resultsAt normalizePath H Z.toStreamEncoder here (World.start store) ∧
      Alike w w' ∧ RestoresAlike normalizePath Z T w w' ∧
      ∀ key, w.store key ≠ store key ∨ w'.store key ≠ store key →
        FoundWhereWritten normalizePath key := by
  intro here there w w'
  have hhere : ∀ i ∈ here, ∀ ctx, Visits i.env i.config ctx →
      PlainVolume ctx.volume ∧ ∀ s ∈ ctx.srcState.snapshots, PlainName s.raw := by
    intro i hi
    obtain ⟨p, hp, rfl⟩ := List.mem_map.mp hi
    exact hnames p hp
  have hthere : ∀ i ∈ there, ∀ ctx, Visits i.env i.config ctx →
      PlainVolume ctx.volume ∧ ∀ s ∈ ctx.srcState.snapshots, PlainName s.raw := by
    intro i hi ctx hctx
    obtain ⟨p, hp, rfl⟩ := List.mem_map.mp hi
    have hplain := hnames p hp _ hctx.of_onBackend
    exact hplain
  have hw : w = history H Z.toStreamEncoder here (World.start store) :=
    historyAt_plain hpath here (fun i hi ctx hctx => (hhere i hi ctx hctx).1) _
  have hw' : w' = history H Z.toStreamEncoder there (World.start store) :=
    historyAt_plain hpath there (fun i hi ctx hctx => (hthere i hi ctx hctx).1) _
  have hplain : PlainObjects store (World.start store).store :=
    ⟨hstore, fun _ h => absurd rfl h⟩
  have hstart : Alike (World.start store) (World.start store) :=
    ⟨rfl, ⟨fun _ => rfl, fun v hv a ha => (hstore v hv a ha).1.slashFree,
      fun _ _ _ _ _ _ => rfl⟩, rfl, rfl, rfl⟩
  obtain ⟨hresults, halike⟩ := hstart.history (H := H) (Z := Z.toStreamEncoder) moved
    fun p hp ctx hctx => ⟨(hnames p hp ctx hctx).1.slashFree,
      fun s hs => ((hnames p hp ctx hctx).2 s hs).slashFree⟩
  have hobjects := history_plainObjects (H := H) (Z := Z.toStreamEncoder) here hhere hplain
  have hobjects' := history_plainObjects (H := H) (Z := Z.toStreamEncoder) there hthere hplain
  rw [hw, hw', resultsAt_plain hpath here (fun i hi ctx hctx => (hhere i hi ctx hctx).1),
    resultsAt_plain hpath there (fun i hi ctx hctx => (hthere i hi ctx hctx).1)]
  refine ⟨hresults, halike, halike.restores hpath hobjects.listed, ?_⟩
  rintro key (hkey | hkey)
  · exact (hobjects.changed key hkey).found hpath
  · exact (hobjects'.changed key hkey).found hpath

/-- A run that fails on its second snapshot, and one that succeeds, to a directory and to
object storage. -/
def bothDays : List (Invocation × BackendSpec) :=
  [((twoDays none).failingAt 16, .objectStorage), (twoDays none, .objectStorage)]

theorem backends_agree_bothDays :
    let encoder := StreamCodec.bytewise.toStreamEncoder
    let here := bothDays.map Prod.fst
    let there := bothDays.map fun p => p.1.onBackend p.2
    let w := historyAt trimPath .keepAll encoder here (World.start fun _ => none)
    let w' := historyAt trimPath .keepAll encoder there (World.start fun _ => none)
    resultsAt trimPath .keepAll encoder there (World.start fun _ => none) =
        resultsAt trimPath .keepAll encoder here (World.start fun _ => none) ∧
      Alike w w' ∧ RestoresAlike trimPath StreamCodec.bytewise byteTransfer w w' ∧
      ∀ key, w.store key ≠ none ∨ w'.store key ≠ none → FoundWhereWritten trimPath key := by
  apply backends_agree trimPath trimPath_keepsPlain
  · intro v _ a ha
    exact absurd ha List.not_mem_nil
  · intro p hp ctx hctx
    have hvisits : Visits (twoDays none).env (twoDays none).config ctx := by
      rcases List.mem_cons.mp hp with rfl | hp
      · exact ⟨hctx.visit⟩
      · obtain rfl := List.mem_singleton.mp hp
        exact hctx
    have hsrc := (twoDays_visits hvisits).2.2.2.2
    rw [twoDays_volume hvisits, hsrc]
    exact ⟨by decide, by decide⟩

end Bbkar
