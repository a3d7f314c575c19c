import Bbkar.Run
import Bbkar.ChunkParts

/-!
# What one step of a run does

Writing a snapshot touches its part files only, and metadata follows when all of them are
stored. `executeStep_spec` lists the ways a step can end, with what it has done by then;
everything else about runs is proved from it.
-/
namespace Bbkar
open Codec Effects Function

/-! ## Streams -/

/-- The data of a stream, as it comes. -/
def stdoutPieces : SendStream → List Bytes
  | [] => []
  | .ok (.stdoutBytes data _) :: stream => data :: stdoutPieces stream
  | _ :: stream => stdoutPieces stream

/-- The length of the longest buffer the encoder hands over for a stream. -/
def bufferBound (Z : StreamEncoder) (stream : SendStream) : ℕ :=
  (Z.encode (stdoutPieces stream)).toFinset.sup List.length

theorem length_le_bufferBound {Z : StreamEncoder} {stream : SendStream} :
    ∀ b ∈ Z.encode (stdoutPieces stream), b.length ≤ bufferBound Z stream :=
  fun _ hb => Finset.le_sup (f := List.length) (List.mem_toFinset.mpr hb)

/-- The stream has no `Err` item. -/
def Clean (stream : SendStream) : Prop := ∀ e, Except.error e ∉ stream

section Write

variable {H : IncrementalHash} {Z : StreamEncoder} {env : Env} {v s : String}
  {limit B : ℕ} {w₀ w : World}

/-- What is written so far, with the buffers still to come, makes up `total`. -/
def Pending (total : Bytes) (limit B : ℕ) (v s : String) (store : Store)
    (session : CompressSession H Z) (bufs : List Bytes) : Prop :=
  (∀ b ∈ bufs, b.length ≤ B) ∧ ∃ parts cur,
    WriterAt v s limit B store session.writer parts cur ∧
      content parts cur ++ bufs.flatten = total

theorem Pending.countRaw {total : Bytes} {store : Store} {session : CompressSession H Z}
    {bufs : List Bytes} (h : Pending total limit B v s store session bufs)
    (item : Except BbkarError BtrfsSendChunk) :
    Pending total limit B v s store (session.countRaw item) bufs := by
  obtain ⟨hb, parts, cur, hat, hc⟩ := h
  refine ⟨hb, parts, cur, ?_, hc⟩
  unfold CompressSession.countRaw
  split
  · exact ⟨hat.volume_eq, hat.snapshot_eq, hat.limit_eq, hat.written, hat.stored, hat.number,
      hat.noFile, fun bytes hcur =>
        have ho := hat.openPart bytes hcur
        ⟨ho.file, ho.filename, ho.size, ho.hasher⟩, hat.short⟩
  · exact hat

/-- One item of the stream: its buffers are written, or it is the error that ends it. -/
theorem processItem_spec {total : Bytes} {item : Except BbkarError BtrfsSendChunk}
    {rest : SendStream} {session : CompressSession H Z}
    (h : Pending total limit B v s w.store session
      (Z.encodeFrom session.encoder (stdoutPieces (item :: rest))))
    (hf : OnlyParts (PartsOf v s) w₀ w) :
    wp (CompressSession.processItem env session item)
      (fun session' w' => OnlyParts (PartsOf v s) w₀ w' ∧ (∀ e, item ≠ .error e) ∧
        Pending total limit B v s w'.store session'
          (Z.encodeFrom session'.encoder (stdoutPieces rest)))
      (fun _ w' => OnlyParts (PartsOf v s) w₀ w') w := by
  unfold CompressSession.processItem
  cases item with
  | error e => exact hf
  | ok chunk =>
    cases chunk with
    | processExit code stderr => exact ⟨hf, by simp, h⟩
    | stdoutBytes data offset =>
      obtain ⟨hb, parts, cur, hat, hc⟩ := h.countRaw (.ok (.stdoutBytes data offset))
      simp only [stdoutPieces, StreamEncoder.encodeFrom] at hb hc
      simp only [CompressSession.countRaw] at hat
      simp only [CompressSession.writeChunk, CompressSession.countRaw, wp_bind, wp_call, wp_pure]
      refine ⟨fun _ => ?_, fun _ _ => hf.tick⟩
      refine wp_mono_ok (WriterAt.writeBuffers_spec (w := w.tick) hat hf.tick
        (fun b hbuf => hb b (List.mem_append_left _ hbuf))) ?_
      rintro cw' w' ⟨hf', parts', cur', hat', hc'⟩
      refine ⟨hf', by simp, fun b hbuf => hb b (List.mem_append_right _ hbuf), parts', cur', hat',
        ?_⟩
      rw [hc', ← hc, List.flatten_append, List.append_assoc]

/-- The parts hold the compressed stream, and none of them is much longer than the limit. -/
structure Encodes (Z : StreamEncoder) (limit : ℕ) (stream : SendStream) (parts : Parts) :
    Prop where
  short : ∀ p ∈ parts, p.2.length < max limit 1 + bufferBound Z stream
  bytes : (parts.map Prod.snd).flatten = (Z.encode (stdoutPieces stream)).flatten

/-- What a complete write has stored. -/
def StoredStream (H : IncrementalHash) (Z : StreamEncoder) (limit : ℕ) (v s : String)
    (store : Store) (stream : SendStream) (chunks : List ChunkFilename) : Prop :=
  ∃ parts, chunks = parts.map Prod.fst ∧ Stored H store v s parts ∧ Encodes Z limit stream parts

theorem writeSubvolumeToDest_spec (backend : BackendSpec) (maxMib : ℕ) (stream : SendStream)
    (hf : OnlyParts (PartsOf v s) w₀ w) :
    wp (writeSubvolumeToDest H Z env backend v s maxMib stream)
      (fun out w' => OnlyParts (PartsOf v s) w₀ w' ∧ Clean stream ∧
        StoredStream H Z (maxMib * 1024 * 1024) v s w'.store stream out.1)
      (fun _ w' => OnlyParts (PartsOf v s) w₀ w') w := by
  unfold writeSubvolumeToDest CompressSession.new
  simp only [wp_bind, wp_call, wp_pure]
  refine ⟨fun _ => ?_, fun _ _ => hf.tick⟩
  let total := (Z.encode (stdoutPieces stream)).flatten
  let limit := maxMib * 1024 * 1024
  -- the loop over the stream keeps what is written together with what is still to come
  let I : SendStream → CompressSession H Z → World → Prop := fun rest session w' =>
    OnlyParts (PartsOf v s) w₀ w' ∧ (Clean rest → Clean stream) ∧
      Pending total limit (bufferBound Z stream) v s w'.store session
        (Z.encodeFrom session.encoder (stdoutPieces rest))
  have hloop := wp_foldlM (ε := Halt) (I := I) (E := fun _ w' => OnlyParts (PartsOf v s) w₀ w')
    (f := CompressSession.processItem env) stream
    (⟨Z.init, ChunkedWriter.new H backend v s limit⟩ : CompressSession H Z) ?_ (s := w.tick)
    ⟨hf.tick, id, length_le_bufferBound, [], none, writerAt_new H backend v s limit _ _, rfl⟩
  · unfold CompressSession.processAll
    rw [wp_bind]
    refine wp_mono_ok hloop ?_
    rintro session w₁ ⟨hf₁, hclean, hb, parts, cur, hat, hc⟩
    simp only [CompressSession.finish, wp_bind, wp_call]
    refine ⟨fun _ => ?_, fun _ _ => hf₁.tick⟩
    refine wp_mono_ok (WriterAt.writeBuffers_spec (w := w₁.tick) hat hf₁.tick hb) ?_
    rintro cw w₂ ⟨hf₂, parts₂, cur₂, hat₂, hc₂⟩
    refine wp_mono_ok (hat₂.finish_spec hf₂) ?_
    rintro chunks w₃ ⟨hf₃, parts₃, hchunks, hstored, hshort, hflat, -⟩
    refine ⟨hf₃, hclean (by simp [Clean]), parts₃, hchunks, hstored, hshort, ?_⟩
    rw [hflat, hc₂]
    exact hc
  · rintro item rest session w₁ ⟨hf₁, hclean, hpend⟩
    refine wp_mono_ok (processItem_spec hpend hf₁) ?_
    rintro session' w' ⟨hf', hitem, hpend'⟩
    refine ⟨hf', fun hrest => hclean ?_, hpend'⟩
    intro e he
    rcases List.mem_cons.mp he with he | he
    · exact hitem e he.symm
    · exact hrest e he

/-- The world in which a write of the snapshot has just begun. -/
def World.sending (v s : String) (stream : SendStream) (w : World) : World :=
  w.log (.writeSubvolume v s stream) w.store

theorem writeSubvolume_spec (backend : BackendSpec) (maxMib : ℕ) (stream : SendStream)
    (w : World) :
    wp (writeSubvolume H Z env backend v s maxMib stream)
      (fun out w' => OnlyParts (PartsOf v s) (w.sending v s stream) w' ∧ Clean stream ∧
        StoredStream H Z (maxMib * 1024 * 1024) v s w'.store stream out.1)
      (fun _ w' => OnlyParts (PartsOf v s) (w.sending v s stream) w') w := by
  unfold writeSubvolume
  rw [wp_bind, wp_modify, wp_afterError]
  exact wp_mono (writeSubvolumeToDest_spec backend maxMib stream (.refl _)) (fun _ _ h => h)
    (fun _ _ h => h.applyLeftover env)

end Write

/-! ## Steps -/

/-- The stream that the environment gives for the step at some call. -/
def Yields (env : Env) (volume : String) (step : RunStep) (stream : SendStream) : Prop :=
  match step with
  | .sendFull snap => ∃ n, stream = env.readSubvolumeFull n (subvolumeName volume snap.raw)
  | .sendIncremental snap parent => ∃ n,
    stream = env.readSubvolumeIncremental n (subvolumeName volume snap.raw)
      (subvolumeName volume parent.raw)

theorem readSubvolume_spec {env : Env} {volume : String} {step : RunStep} {w : World}
    {Q : SendStream → World → Prop} {E : Halt → World → Prop}
    (hQ : ∀ stream, Yields env volume step stream → Q stream w.tick) :
    wp (readSubvolume env volume step) Q E w := by
  cases step with
  | sendFull snap => exact hQ _ ⟨w.calls, rfl⟩
  | sendIncremental snap parent => exact hQ _ ⟨w.calls, rfl⟩

/-- The metadata that a run extends: what it has read, or a new one. -/
def Opens (dest : DestState) (m : DestMeta) : Prop :=
  dest.destMeta = some m ∨ (dest.destMeta = none ∧ ∃ now, m = DestMeta.new now 0 [])

theorem Opens.archives_eq {dest : DestState} {m : DestMeta} (h : Opens dest m) :
    m.archives = dest.archives := by
  rcases h with h | ⟨h, now, rfl⟩ <;> simp [DestState.archives, h]

theorem exists_opens (dest : DestState) : ∃ m, Opens dest m := by
  cases hm : dest.destMeta with
  | none => exact ⟨_, Or.inr ⟨hm, 0, rfl⟩⟩
  | some m => exact ⟨m, Or.inl hm⟩

theorem openMeta_spec {env : Env} {dest : DestState} {w : World} :
    wp (openMeta env dest) (fun m w' => Opens dest m ∧ (w' = w ∨ w' = w.tick))
      (fun _ _ => False) w := by
  unfold openMeta
  cases hm : dest.destMeta with
  | none => exact ⟨Or.inr ⟨hm, _, rfl⟩, Or.inr rfl⟩
  | some m => exact ⟨Or.inl hm, Or.inl rfl⟩

/-- The write of a step has been started, and only part files have changed since. -/
structure Sending (env : Env) (ctx : VolumeContext) (step : RunStep) (stream : SendStream)
    (w w' : World) : Prop where
  yields : Yields env ctx.volume step stream
  frame : OnlyParts (PartsOf ctx.volume step.snap.raw)
    (w.sending ctx.volume step.snap.raw stream) w'

/-- The write of a step has succeeded. -/
structure Sent (H : IncrementalHash) (Z : StreamEncoder) (env : Env) (ctx : VolumeContext)
    (step : RunStep) (stream : SendStream) (chunks : List ChunkFilename) (w w' : World) :
    Prop extends Sending env ctx step stream w w' where
  clean : Clean stream
  stored : StoredStream H Z (ctx.maxBackupChunkSize * 1024 * 1024) ctx.volume step.snap.raw
    w'.store stream chunks

/-- The metadata of `w'` may be the new one; nothing else has changed. -/
structure MetaTried (volume : String) (m : DestMeta) (w w' : World) : Prop where
  store : w'.store = w.store ∨
    w'.store = update w.store (metaKey volume) (some (.metadata m))
  trace : ∃ returned, w'.trace = ⟨.writeMetadata volume m returned, w.store, w'.store⟩ :: w.trace ∧
    (returned = true → Persisted w'.store volume m)

theorem MetaTried.congr {volume : String} {m : DestMeta} {w w₁ w' : World}
    (h : MetaTried volume m w w') (hstore : w.store = w₁.store) (htrace : w.trace = w₁.trace) :
    MetaTried volume m w₁ w' := by
  obtain ⟨hs, ht⟩ := h
  rw [hstore] at hs ht
  rw [htrace] at ht
  exact ⟨hs, ht⟩

/-- The metadata after a step. -/
def DestMeta.after (m : DestMeta) (step : RunStep) (chunks : List ChunkFilename) (now : ℕ) :
    DestMeta :=
  (m.addArchive (step.archive chunks)).setLastSyncTimestamp now

/-- The record says whether the write returned. -/
theorem writeMetadata_logged (env : Env) (volume : String) (m : DestMeta) (w : World) :
    wp (writeMetadata env volume m)
      (fun _ w' => w'.store = update w.store (metaKey volume) (some (.metadata m)) ∧
        w'.trace = ⟨.writeMetadata volume m true, w.store, w'.store⟩ :: w.trace)
      (fun _ w' => (w'.store = w.store ∨
          w'.store = update w.store (metaKey volume) (some (.metadata m))) ∧
        w'.trace = ⟨.writeMetadata volume m false, w.store, w'.store⟩ :: w.trace) w := by
  unfold writeMetadata
  simp only [wp_bind, wp_get, wp_modify]
  cases env.fault w.calls with
  | none =>
    simp only [wp_putObject]
    exact ⟨rfl, rfl⟩
  | some h =>
    simp only [wp_bind, wp_modify, wp_throw]
    refine ⟨?_, rfl⟩
    cases env.persisted w.calls with
    | true => exact Or.inr rfl
    | false => exact Or.inl rfl

theorem writeMetadata_spec {env : Env} (volume : String) (m : DestMeta) (w : World) :
    wp (writeMetadata env volume m)
      (fun _ w' => MetaTried volume m w w' ∧ Persisted w'.store volume m)
      (fun _ w' => MetaTried volume m w w') w := by
  refine wp_mono (writeMetadata_logged env volume m w) ?_ ?_
  · rintro _ w' ⟨hstore, htrace⟩
    have hp : Persisted w'.store volume m := by simp [Persisted, hstore]
    exact ⟨⟨Or.inr hstore, true, htrace, fun _ => hp⟩, hp⟩
  · rintro _ w' ⟨hstore, htrace⟩
    exact ⟨hstore, false, htrace, by simp⟩

/-- The world in which the archive of a step has been counted. -/
def World.counted (archive : VolumeArchive) (w : World) : World :=
  { w with
    totalBytesSent := w.totalBytesSent + archive.totalSize
    sent := w.sent.addArchive archive }

/-- The rule for a step: it fails while sending, or what remains is to write metadata. -/
theorem executeStep_rule (H : IncrementalHash) (Z : StreamEncoder) (env : Env)
    (ctx : VolumeContext) (m : DestMeta) (step : RunStep) (w : World)
    {Q : DestMeta → World → Prop} {E : Halt → World → Prop}
    (hfail : ∀ stream e w', Sending env ctx step stream w w' → E e w')
    (hsent : ∀ stream chunks now w₁, Sent H Z env ctx step stream chunks w w₁ →
      wp (writeMetadata env ctx.volume (m.after step chunks now))
        (fun _ => Q (m.after step chunks now)) E (w₁.counted (step.archive chunks)).tick) :
    wp (executeStep H Z env ctx m step) Q E w := by
  unfold executeStep
  rw [wp_bind]
  refine readSubvolume_spec fun stream hy => ?_
  rw [wp_bind]
  refine wp_mono (writeSubvolume_spec ctx.backend ctx.maxBackupChunkSize stream w.tick) ?_
    (fun e w' hf => hfail stream e w' ⟨hy, hf.store, hf.trace, hf.stats⟩)
  rintro ⟨chunks, stats⟩ w₁ ⟨hf, hclean, hstored⟩
  simp only [wp_bind, wp_modify, wp_ask, wp_pure]
  exact hsent stream chunks _ w₁ ⟨⟨hy, hf.store, hf.trace, hf.stats⟩, hclean, hstored⟩

/-- A step that returns has written its snapshot and then its metadata. One that fails did
so while sending, or while writing metadata for a snapshot already sent. -/
theorem executeStep_spec (H : IncrementalHash) (Z : StreamEncoder) (env : Env)
    (ctx : VolumeContext) (m : DestMeta) (step : RunStep) (w : World) :
    wp (executeStep H Z env ctx m step)
      (fun m' w' => ∃ stream chunks now w₁, Sent H Z env ctx step stream chunks w w₁ ∧
        m' = m.after step chunks now ∧ MetaTried ctx.volume m' w₁ w' ∧
        Persisted w'.store ctx.volume m')
      (fun _ w' => ∃ stream, Sending env ctx step stream w w' ∨
        ∃ chunks now w₁, Sent H Z env ctx step stream chunks w w₁ ∧
          MetaTried ctx.volume (m.after step chunks now) w₁ w') w := by
  refine executeStep_rule H Z env ctx m step w (fun stream _ w' hs => ⟨stream, Or.inl hs⟩) ?_
  intro stream chunks now w₁ hs
  refine wp_mono (writeMetadata_spec _ _ _) ?_ ?_
  · rintro _ w' ⟨htried, hp⟩
    exact ⟨stream, chunks, now, w₁, hs, rfl, htried.congr rfl rfl, hp⟩
  · rintro _ w' htried
    exact ⟨stream, Or.inr ⟨chunks, now, w₁, hs, htried.congr rfl rfl⟩⟩

end Bbkar
