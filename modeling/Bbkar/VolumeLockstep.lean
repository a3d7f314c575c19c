import Bbkar.Lockstep
import Bbkar.Totals
import Bbkar.VisitedVolumes

/-!
# One volume in two worlds

Two runs over one volume whose objects are the same, where no call fails and streams and
outputs do not depend on the time of the call, do the same to these objects up to the
sync timestamps, and they add the same to the totals.
-/
namespace Bbkar
open Codec Effects Function

/-! ## Worlds that agree on a volume -/

/-- No call fails, and what is read or taken does not depend on its number. -/
structure SameAnswers (env env' : Env) : Prop extends SameStreams env env' where
  noFault : ∀ n, env.fault n = none
  noFault' : ∀ n, env'.fault n = none
  accept : ∀ n n', env'.accept n' = env.accept n

/-- The bytes of a part, or the archives of metadata without the sync timestamps. -/
def Blob.contents : Blob → Bytes ⊕ List VolumeArchive
  | part bytes => .inl bytes
  | metadata m => .inr m.archives

def contentsAt (store : Store) (key : String) : Option (Bytes ⊕ List VolumeArchive) :=
  (store key).map Blob.contents

theorem contentsAt_update (store : Store) (key : String) (blob : Option Blob) (k : String) :
    contentsAt (update store key blob) k =
      if k = key then blob.map Blob.contents else contentsAt store k := by
  unfold contentsAt
  by_cases hk : k = key
  · rw [hk, update_self, if_pos rfl]
  · rw [update_of_ne hk, if_neg hk]

theorem partBytes_contents {store store' : Store} {key : String}
    (h : contentsAt store' key = contentsAt store key) :
    partBytes store' key = partBytes store key := by
  unfold contentsAt at h
  unfold partBytes
  rcases hs : store key with _ | ⟨bytes⟩ | ⟨m⟩ <;>
    rcases hs' : store' key with _ | ⟨bytes'⟩ | ⟨m'⟩ <;>
    simp [hs, hs', Blob.contents] at h ⊢
  exact h

/-- The archives that planning reads. -/
def metaContents : Bytes ⊕ List VolumeArchive → List VolumeArchive
  | .inl _ => []
  | .inr archives => archives

theorem destStateOn_archives (store : Store) (volume : String) :
    (destStateOn store volume).archives =
      ((contentsAt store (metaKey volume)).map metaContents).getD [] := by
  unfold destStateOn contentsAt
  rcases store (metaKey volume) with _ | ⟨bytes⟩ | ⟨m⟩ <;> rfl

/-- The objects of the volume have the same contents, and since `start` and `start'` both
worlds have counted the same. -/
structure OneVolume (volume : String) (start start' w w' : World) : Prop where
  objects : ∀ key, KeyOf volume key → contentsAt w'.store key = contentsAt w.store key
  sent : w'.sent + start.sent = w.sent + start'.sent
  remote : w'.remote + start.remote = w.remote + start'.remote
  totalBytesSent : w'.totalBytesSent + start.totalBytesSent =
    w.totalBytesSent + start'.totalBytesSent

section Lockstep

variable {H : IncrementalHash} {Z : StreamEncoder} {env env' : Env} {volume : String}
  {start start' : World}

theorem OneVolume.begin
    (h : ∀ key, KeyOf volume key → contentsAt start'.store key = contentsAt start.store key) :
    OneVolume volume start start' start start' :=
  ⟨h, add_comm _ _, add_comm _ _, add_comm _ _⟩

theorem OneVolume.log {w w' : World} (h : OneVolume volume start start' w w') {key : String}
    {blob blob' : Option Blob} (hb : blob'.map Blob.contents = blob.map Blob.contents)
    (event event' : Event) :
    OneVolume volume start start' (w.log event (update w.store key blob))
      (w'.log event' (update w'.store key blob')) := by
  refine ⟨fun k hk => ?_, h.sent, h.remote, h.totalBytesSent⟩
  rw [World.log_store, World.log_store, contentsAt_update, contentsAt_update, hb, h.objects k hk]

theorem lockstep_call (ha : SameAnswers env env') :
    Lockstep (OneVolume volume start start') (fun _ _ => True) (call env) (call env') := by
  intro w w' h
  simp only [wp_call, ha.noFault, ha.noFault', true_implies, reduceCtorEq, false_implies,
    implies_true, and_true, true_and]
  exact ⟨h.objects, h.sent, h.remote, h.totalBytesSent⟩

theorem lockstep_ask {α : Type} {answer answer' : ℕ → α} {V : α → α → Prop}
    (hV : ∀ n n', V (answer n) (answer' n')) :
    Lockstep (OneVolume volume start start') V (ask answer) (ask answer') := by
  intro w w' h
  simp only [wp_ask]
  exact ⟨hV _ _, h.objects, h.sent, h.remote, h.totalBytesSent⟩

theorem lockstep_putObject (event : Event) {key : String} {blob blob' : Option Blob}
    (hb : blob'.map Blob.contents = blob.map Blob.contents) (event' : Event) :
    Lockstep (OneVolume volume start start') (fun _ _ => True) (putObject event key blob)
      (putObject event' key blob') :=
  lockstep_modify fun _ _ h => h.log hb event event'

/-! ## The writer -/

/-- Both sides have the same output, on a key of the volume. -/
def SameOutput (volume : String) (file file' : ChunkOutput) : Prop :=
  file' = file ∧ ∀ key, file = .localFile key → KeyOf volume key

/-- Both sides have the same writer, on a key of the volume. -/
def SameWriter (volume : String) (cw cw' : ChunkedWriter H) : Prop :=
  cw' = cw ∧ cw.volume = volume ∧
    ∀ file, cw.currentFile = some file → SameOutput volume file file

/-- A write of as many bytes leaves the same output. -/
def SameWritten (volume : String) (r r' : ℕ × ChunkOutput) : Prop :=
  r'.1 = r.1 ∧ SameOutput volume r.2 r'.2

theorem lockstep_close (ha : SameAnswers env env') (file : ChunkOutput) :
    Lockstep (OneVolume volume start start') (fun _ _ => True) (file.close env)
      (file.close env') := by
  cases file with
  | localFile key => exact lockstep_bind (lockstep_call ha) fun _ _ _ => lockstep_pure trivial
  | remote key buffered =>
    exact lockstep_bind (lockstep_call ha) fun _ _ _ => lockstep_putObject _ rfl _

theorem lockstep_write (ha : SameAnswers env env') (buf : Bytes) {file : ChunkOutput}
    (hfile : SameOutput volume file file) :
    Lockstep (OneVolume volume start start') (SameWritten volume) (file.write env buf)
      (file.write env' buf) := by
  cases file with
  | localFile key =>
    refine lockstep_bind (lockstep_call ha) fun n n' _ => ?_
    refine lockstep_bind lockstep_get fun w w' hw => ?_
    have haccept : ChunkOutput.accepted env' n' buf = ChunkOutput.accepted env n buf := by
      rw [ChunkOutput.accepted, ha.accept n n', ChunkOutput.accepted]
    rw [haccept, partBytes_contents (hw.objects key (hfile.2 key rfl))]
    exact lockstep_bind (lockstep_putObject _ rfl _) fun _ _ _ =>
      lockstep_pure ⟨rfl, hfile⟩
  | remote key buffered =>
    refine lockstep_bind (lockstep_call ha) fun n n' _ => ?_
    have haccept : ChunkOutput.accepted env' n' buf = ChunkOutput.accepted env n buf := by
      rw [ChunkOutput.accepted, ha.accept n n', ChunkOutput.accepted]
    rw [haccept]
    exact lockstep_pure ⟨rfl, rfl, by simp⟩

theorem lockstep_openNextChunk (ha : SameAnswers env env') {cw : ChunkedWriter H}
    (hv : cw.volume = volume) (filename : String) :
    Lockstep (OneVolume volume start start') (SameOutput volume) (cw.openNextChunk env filename)
      (cw.openNextChunk env' filename) := by
  unfold ChunkedWriter.openNextChunk
  refine lockstep_bind (lockstep_call ha) fun _ _ _ => ?_
  cases cw.backend with
  | localDir =>
    refine lockstep_bind (lockstep_putObject _ rfl _) fun _ _ _ => lockstep_pure ⟨rfl, ?_⟩
    rintro key hkey
    obtain rfl := ChunkOutput.localFile.inj hkey
    exact hv ▸ keyOf_pathInSnapshot _ _ _
  | objectStorage => exact lockstep_pure ⟨rfl, by simp⟩

theorem lockstep_finalizeCurrent (ha : SameAnswers env env') {cw cw' : ChunkedWriter H}
    (h : SameWriter volume cw cw') :
    Lockstep (OneVolume volume start start') (SameWriter volume) (cw.finalizeCurrent env)
      (cw'.finalizeCurrent env') := by
  obtain ⟨rfl, hv, hfile⟩ := h
  unfold ChunkedWriter.finalizeCurrent
  cases hcur : cw'.currentFile with
  | none => exact lockstep_pure ⟨rfl, hv, hfile⟩
  | some file =>
    exact lockstep_bind (lockstep_close ha file) fun _ _ _ =>
      lockstep_pure ⟨rfl, hv, by simp⟩

theorem lockstep_rollNext (ha : SameAnswers env env') {cw cw' : ChunkedWriter H}
    (h : SameWriter volume cw cw') :
    Lockstep (OneVolume volume start start') (SameWriter volume) (cw.rollNext env)
      (cw'.rollNext env') := by
  refine lockstep_bind (lockstep_finalizeCurrent ha h) ?_
  rintro cw cw' ⟨rfl, hv, -⟩
  split_ifs
  · refine lockstep_bind (lockstep_openNextChunk ha hv _) ?_
    rintro file file' ⟨rfl, hfile⟩
    refine lockstep_pure ⟨rfl, hv, ?_⟩
    intro file hcur
    obtain rfl := Option.some.inj hcur
    exact ⟨rfl, hfile⟩
  · exact lockstep_throw _

theorem lockstep_chunkedWrite (ha : SameAnswers env env') (buf : Bytes)
    {cw cw' : ChunkedWriter H} (h : SameWriter volume cw cw') :
    Lockstep (OneVolume volume start start')
      (fun r r' => r'.1 = r.1 ∧ SameWriter volume r.2 r'.2) (cw.write env buf)
      (cw'.write env' buf) := by
  have hensure : Lockstep (OneVolume volume start start') (SameWriter volume) (cw.ensureChunk env)
      (cw'.ensureChunk env') := by
    have hsame : cw' = cw := h.1
    rw [hsame] at h ⊢
    unfold ChunkedWriter.ensureChunk
    split_ifs
    · exact lockstep_rollNext ha h
    · exact lockstep_pure h
  refine lockstep_bind hensure ?_
  rintro cw cw' ⟨rfl, hv, hfile⟩
  unfold ChunkedWriter.writeCurrent
  cases hcur : cw'.currentFile with
  | none => exact lockstep_throw _
  | some file =>
    refine lockstep_bind (lockstep_write ha buf (hfile file hcur)) ?_
    rintro ⟨n, file₁⟩ ⟨n', file₁'⟩ ⟨hn, hfile₁⟩
    obtain rfl : n' = n := hn
    obtain rfl : file₁' = file₁ := hfile₁.1
    refine lockstep_pure ⟨rfl, rfl, hv, ?_⟩
    intro file₂ hcur₂
    obtain rfl := Option.some.inj hcur₂
    exact hfile₁

theorem lockstep_writeAll (ha : SameAnswers env env') (fuel : ℕ) (buf : Bytes)
    {cw cw' : ChunkedWriter H} (h : SameWriter volume cw cw') :
    Lockstep (OneVolume volume start start') (SameWriter volume)
      (ChunkedWriter.writeAll env fuel cw buf) (ChunkedWriter.writeAll env' fuel cw' buf) := by
  induction fuel generalizing cw cw' buf with
  | zero =>
    refine lockstep_bind (lockstep_chunkedWrite ha buf h) ?_
    rintro ⟨n, cw₁⟩ ⟨n', cw₁'⟩ ⟨hn, hcw⟩
    obtain rfl : n' = n := hn
    by_cases hrest : buf.drop n' = []
    · simp only [hrest, if_true]
      exact lockstep_pure hcw
    · simp only [hrest, if_false]
      exact lockstep_throw _
  | succ fuel ih =>
    refine lockstep_bind (lockstep_chunkedWrite ha buf h) ?_
    rintro ⟨n, cw₁⟩ ⟨n', cw₁'⟩ ⟨hn, hcw⟩
    obtain rfl : n' = n := hn
    by_cases hrest : buf.drop n' = []
    · simp only [hrest, if_true]
      exact lockstep_pure hcw
    · simp only [hrest, if_false]
      exact ih _ hcw

/-! ## Snapshots -/

/-- Both sides have the same session, with a writer on keys of the volume. -/
def SameSession (volume : String) (session session' : CompressSession H Z) : Prop :=
  session' = session ∧ SameWriter volume session.writer session.writer

theorem lockstep_writeBuffers (ha : SameAnswers env env') (bufs : List Bytes)
    {cw cw' : ChunkedWriter H} (h : SameWriter volume cw cw') :
    Lockstep (OneVolume volume start start') (SameWriter volume) (cw.writeBuffers env bufs)
      (cw'.writeBuffers env' bufs) :=
  lockstep_foldlM bufs (fun buf _ _ _ hcw => lockstep_writeAll ha buf.length buf hcw) h

theorem lockstep_processItem (ha : SameAnswers env env')
    (item : Except BbkarError BtrfsSendChunk) {session session' : CompressSession H Z}
    (h : SameSession volume session session') :
    Lockstep (OneVolume volume start start') (SameSession volume)
      (session.processItem env item) (session'.processItem env' item) := by
  obtain ⟨rfl, -, hv, hfile⟩ := h
  cases item with
  | error e => exact lockstep_throw _
  | ok chunk =>
    cases chunk with
    | processExit code stderr => exact lockstep_pure ⟨rfl, rfl, hv, hfile⟩
    | stdoutBytes data offset =>
      refine lockstep_bind (lockstep_call ha) fun _ _ _ => ?_
      refine lockstep_bind (lockstep_writeBuffers ha _ ⟨rfl, hv, hfile⟩) ?_
      rintro cw cw' ⟨rfl, hcw⟩
      exact lockstep_pure ⟨rfl, rfl, hcw⟩

theorem lockstep_writeSubvolumeToDest (ha : SameAnswers env env') (backend : BackendSpec)
    (snapshot : String) (maxMib : ℕ) (stream : SendStream) :
    Lockstep (OneVolume volume start start') Eq
      (writeSubvolumeToDest H Z env backend volume snapshot maxMib stream)
      (writeSubvolumeToDest H Z env' backend volume snapshot maxMib stream) := by
  unfold writeSubvolumeToDest CompressSession.new CompressSession.processAll
  have hnew : SameSession (Z := Z) volume
      ⟨Z.init, ChunkedWriter.new H backend volume snapshot (maxMib * 1024 * 1024)⟩
      ⟨Z.init, ChunkedWriter.new H backend volume snapshot (maxMib * 1024 * 1024)⟩ :=
    ⟨rfl, rfl, rfl, by simp [ChunkedWriter.new]⟩
  refine lockstep_bind (lockstep_bind (lockstep_call ha) fun _ _ _ => lockstep_pure hnew) ?_
  intro session session' hsession
  refine lockstep_bind (V := SameWriter volume) (lockstep_bind
    (lockstep_foldlM stream (fun item _ _ _ h => lockstep_processItem ha item h) hsession) ?_) ?_
  · rintro session session' ⟨rfl, hcw⟩
    exact lockstep_bind (lockstep_call ha) fun _ _ _ => lockstep_writeBuffers ha _ hcw
  · rintro cw cw' hcw
    obtain rfl : cw' = cw := hcw.1
    unfold ChunkedWriter.finish
    refine lockstep_bind (V := Eq) (lockstep_bind (lockstep_finalizeCurrent ha hcw) ?_) ?_
    · rintro cw₁ cw₁' ⟨rfl, -⟩
      exact lockstep_pure rfl
    · rintro chunks chunks' rfl
      exact lockstep_pure rfl

/-- The write of a snapshot, where it never fails. -/
theorem lockstep_writeSubvolume (ha : SameAnswers env env') (backend : BackendSpec)
    (snapshot : String) (maxMib : ℕ) (stream : SendStream)
    (hok : ∀ w, (outcome (writeSubvolume H Z env backend volume snapshot maxMib stream) w).1.isOk =
      true) :
    Lockstep (OneVolume volume start start') Eq
      (writeSubvolume H Z env backend volume snapshot maxMib stream)
      (writeSubvolume H Z env' backend volume snapshot maxMib stream) := by
  intro w w' h
  have hlog : OneVolume volume start start' (w.sending volume snapshot stream)
      (w'.sending volume snapshot stream) := ⟨h.objects, h.sent, h.remote, h.totalBytesSent⟩
  unfold writeSubvolume
  simp only [wp_bind, wp_modify, wp_afterError]
  rcases (lockstep_writeSubvolumeToDest ha backend snapshot maxMib stream).cases hlog with
    ⟨a, a', s, s', hx, hy, hv, hR⟩ | ⟨e, s, s', hx, hy, hR⟩
  · exact (wp_of_ok hx).mpr ((wp_of_ok hy).mpr ⟨hv, hR⟩)
  · obtain ⟨a, t, hret⟩ := exists_of_isOk (hok w)
    have herr : wp (writeSubvolume H Z env backend volume snapshot maxMib stream)
        (fun _ _ => False) (fun _ _ => True) w := by
      unfold writeSubvolume
      simp only [wp_bind, wp_modify, wp_afterError]
      exact (wp_of_error hx).mpr trivial
    exact ((wp_of_ok hret).mp herr).elim

/-! ## Steps -/

/-- The same archives, with sync timestamps of either time. -/
def SameArchives (m m' : DestMeta) : Prop := m'.archives = m.archives

theorem SameArchives.after {m m' : DestMeta} (h : SameArchives m m') (a : VolumeArchive)
    (now now' : ℕ) : SameArchives ((m.addArchive a).setLastSyncTimestamp now)
      ((m'.addArchive a).setLastSyncTimestamp now') := by
  simp only [SameArchives, DestMeta.setLastSyncTimestamp_archives, DestMeta.addArchive]
  rw [h]

theorem lockstep_writeMetadata (ha : SameAnswers env env') {m m' : DestMeta}
    (h : SameArchives m m') :
    Lockstep (OneVolume volume start start') (fun _ _ => True) (writeMetadata env volume m)
      (writeMetadata env' volume m') := by
  intro w w' hw
  unfold writeMetadata
  simp only [wp_bind, wp_get, wp_modify, ha.noFault, ha.noFault', wp_putObject, true_and]
  have htick : OneVolume volume start start' w.tick w'.tick :=
    ⟨hw.objects, hw.sent, hw.remote, hw.totalBytesSent⟩
  refine htick.log ?_ _ _
  simp only [Option.map_some, Blob.contents, Option.some.injEq, Sum.inr.injEq]
  exact h

theorem lockstep_readSubvolume (hs : SameStreams env env') (step : RunStep) :
    Lockstep (OneVolume volume start start')
      (fun stream stream' => stream' = stream ∧ Yields env volume step stream)
      (readSubvolume env volume step) (readSubvolume env' volume step) := by
  cases step with
  | sendFull snap =>
    unfold readSubvolume
    exact lockstep_ask fun n n' => ⟨hs.full n n' _, n, rfl⟩
  | sendIncremental snap parent =>
    unfold readSubvolume
    exact lockstep_ask fun n n' => ⟨hs.incremental n n' _ _, n, rfl⟩

variable {ctx : VolumeContext}

theorem lockstep_executeStep (ha : SameAnswers env env') (step : RunStep)
    (hok : StepSucceeds H Z env ctx step) {m m' : DestMeta} (hm : SameArchives m m') :
    Lockstep (OneVolume ctx.volume start start') SameArchives (executeStep H Z env ctx m step)
      (executeStep H Z env' ctx m' step) := by
  unfold executeStep
  refine lockstep_bind (lockstep_readSubvolume ha.toSameStreams step) ?_
  rintro stream stream' ⟨rfl, hy⟩
  refine lockstep_bind (lockstep_writeSubvolume ha _ _ _ _ (hok _ hy)) ?_
  rintro written _ rfl
  refine lockstep_bind (lockstep_modify ?_) fun _ _ _ => ?_
  · rintro w w' ⟨hobjects, hsent, hremote, htotal⟩
    refine ⟨hobjects, ?_, hremote, ?_⟩
    · simp only [ArchiveStats.addArchive_eq]
      rw [add_right_comm, hsent, add_right_comm]
    · simp only
      omega
  · refine lockstep_bind (lockstep_ask (V := fun _ _ => True) fun _ _ => trivial) ?_
    intro now now' _
    have hafter := hm.after (step.archive written.1) now now'
    exact lockstep_bind (lockstep_writeMetadata ha hafter) fun _ _ _ => lockstep_pure hafter

/-- What was read of the destination, up to the sync timestamps. -/
def SameDest (dest dest' : DestState) : Prop :=
  dest'.destMeta.map DestMeta.archives = dest.destMeta.map DestMeta.archives

theorem SameDest.archives {dest dest' : DestState} (h : SameDest dest dest') :
    dest'.archives = dest.archives := by
  rw [DestState.archives, h, DestState.archives]

theorem buildPlan_congr {dest dest' : DestState} (h : dest'.archives = dest.archives)
    (src : SourceState) (policy : SendPolicy) :
    buildPlan src dest' policy = buildPlan src dest policy := by
  rw [buildPlan, h, buildPlan]

theorem lockstep_inspectDestVolume (ha : SameAnswers env env') :
    Lockstep (OneVolume volume start start') SameDest (inspectDestVolume env volume)
      (inspectDestVolume env' volume) := by
  unfold inspectDestVolume
  refine lockstep_bind (lockstep_call ha) fun _ _ _ => ?_
  refine lockstep_bind lockstep_get fun w w' hw => ?_
  have hkey := hw.objects _ (keyOf_metaKey volume)
  unfold contentsAt at hkey
  rcases hs : w.store (metaKey volume) with _ | ⟨bytes⟩ | ⟨m⟩ <;>
    rcases hs' : w'.store (metaKey volume) with _ | ⟨bytes'⟩ | ⟨m'⟩ <;>
    simp only [hs, hs', Option.map_some, Option.map_none, Blob.contents, reduceCtorEq,
      Option.some.injEq, Sum.inr.injEq] at hkey
  · exact lockstep_pure rfl
  · exact lockstep_throw _
  · exact lockstep_pure (by simpa [SameDest] using hkey)

theorem lockstep_executePlan (ha : SameAnswers env env') {dest dest' : DestState}
    (hd : SameDest dest dest') {plan : RunPlan}
    (hok : ∀ step ∈ plan.steps, StepSucceeds H Z env ctx step) :
    Lockstep (OneVolume ctx.volume start start')
      (fun m m' => m'.map DestMeta.archives = m.map DestMeta.archives)
      (executePlan H Z env ctx dest plan) (executePlan H Z env' ctx dest' plan) := by
  unfold executePlan
  split_ifs
  · exact lockstep_pure hd
  · have hopen : Lockstep (OneVolume ctx.volume start start') SameArchives (openMeta env dest)
        (openMeta env' dest') := by
      unfold openMeta
      unfold SameDest at hd
      rcases hm : dest.destMeta with _ | m <;> rcases hm' : dest'.destMeta with _ | m' <;>
        simp only [hm, hm', Option.map_some, Option.map_none, reduceCtorEq,
          Option.some.injEq] at hd
      · exact lockstep_ask fun _ _ => rfl
      · exact lockstep_pure hd
    refine lockstep_bind hopen fun m m' hm => ?_
    refine lockstep_bind (lockstep_foldlM plan.steps
      (fun step hstep _ _ h => lockstep_executeStep ha step (hok step hstep) h) hm) ?_
    intro m m' h
    exact lockstep_pure (congrArg some h)

/-- Both runs over the volume return or fail with the same error. -/
theorem lockstep_runVolume (ha : SameAnswers env env')
    (hok : ∀ step : RunStep, step.snap ∈ ctx.srcState.snapshots →
      (∀ p, step.parent = some p → p ∈ ctx.srcState.snapshots) → StepSucceeds H Z env ctx step) :
    Lockstep (OneVolume ctx.volume start start') (fun _ _ => True) (runVolume H Z env ctx)
      (runVolume H Z env' ctx) := by
  unfold runVolume
  refine lockstep_bind (lockstep_inspectDestVolume ha) fun dest dest' hd => ?_
  rw [buildPlan_congr hd.archives]
  cases hplan : buildPlan ctx.srcState dest ctx.sendPolicy with
  | error e =>
    exact lockstep_bind (V := fun _ _ => False) (lockstep_throw e) fun _ _ h => h.elim
  | ok plan =>
    have hrest : Remaining False ctx.sendPolicy ctx.srcState dest.archives plan.steps :=
      .of_buildPlan hplan False.elim
    refine lockstep_bind (V := fun p p' => p = plan ∧ p' = plan) (lockstep_pure ⟨rfl, rfl⟩) ?_
    rintro _ _ ⟨rfl, rfl⟩
    refine lockstep_bind (lockstep_executePlan ha hd fun step hstep => ?_) fun m m' hm => ?_
    · exact hok step (hrest.mem_snapshots step hstep).1 (hrest.mem_snapshots step hstep).2
    · refine lockstep_modify fun w w' hw => ⟨hw.objects, hw.sent, ?_, hw.totalBytesSent⟩
      have hstats : ArchiveStats.fromMeta m' = ArchiveStats.fromMeta m := by
        rw [ArchiveStats.fromMeta, hm, ArchiveStats.fromMeta]
      simp only [hstats, ← ArchiveStats.add_eq_merge]
      rw [add_right_comm, hw.remote, add_right_comm]

end Lockstep

end Bbkar
