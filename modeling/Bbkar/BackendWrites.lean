import Bbkar.Lockstep
import Bbkar.ChunkParts

/-!
# One write on two backends

A local file changes with every write, an object of remote storage appears when it is closed.
Given the same answers, writers on either kind of backend take the same bytes, roll at the
same places and fail at the same calls, and the parts they finish are the same files.
-/
namespace Bbkar
open Codec Effects Filling Function

/-! ## The same calls -/

/-- Both worlds are at the same call. -/
def SameCalls (w w' : World) : Prop := w'.calls = w.calls

/-- The writers differ in where they write to. -/
def SameBooks {H : IncrementalHash} (cw cw' : ChunkedWriter H) : Prop :=
  ∃ backend file, file.isSome = cw.currentFile.isSome ∧
    cw' = { cw with backend := backend, currentFile := file }

section Calls

variable {H : IncrementalHash} {env : Env} {cw cw' : ChunkedWriter H}

/-- A call that both worlds make returns on both sides, or fails on both. -/
theorem paired_call {w w' : World} {Q : ℕ → World → ℕ → World → Prop}
    {E : World → World → Prop} (h : SameCalls w w')
    (hok : Q w.calls w.tick w.calls w'.tick) (herror : E w.tick w'.tick) :
    Paired Q E (call env) (call env) w w' := by
  have hcalls : w'.calls = w.calls := h
  unfold Paired
  simp only [wp_call, hcalls]
  constructor
  · intro hfault
    exact ⟨fun _ => hok, fun e he => by simp [hfault] at he⟩
  · intro e he
    refine ⟨fun hfault => by simp [hfault] at he, fun e' he' => ⟨?_, herror⟩⟩
    exact Option.some.inj (he'.symm.trans he)

theorem SameCalls.tick {w w' : World} (h : SameCalls w w') : SameCalls w.tick w'.tick :=
  congrArg (· + 1) h

theorem paired_afterCall {α α' : Type} {w w' : World} {Q : α → World → α' → World → Prop}
    {E : World → World → Prop} {f : ℕ → Act α} {g : ℕ → Act α'} (h : SameCalls w w')
    (hf : Paired Q E (f w.calls) (g w.calls) w.tick w'.tick) (herror : E w.tick w'.tick) :
    Paired Q E (call env >>= f) (call env >>= g) w w' := by
  refine Paired.bind (Q := fun n u n' u' => n = w.calls ∧ n' = w.calls ∧ u = w.tick ∧ u' = w'.tick)
    (paired_call h ⟨rfl, rfl, rfl, rfl⟩ herror) ?_
  rintro _ _ _ _ ⟨rfl, rfl, rfl, rfl⟩
  exact hf

theorem lockstep_sameCall : Lockstep SameCalls Eq (call env) (call env) :=
  fun _ _ h => paired_call h ⟨rfl, h.tick⟩ h.tick

theorem lockstep_closeEither (file file' : ChunkOutput) :
    Lockstep SameCalls (fun _ _ => True) (file.close env) (file'.close env) := by
  cases file <;> cases file' <;>
    exact lockstep_bind lockstep_sameCall fun _ _ _ _ _ h => ⟨trivial, h⟩

/-- Either output takes as much as the answer says. -/
theorem lockstep_writeEither (file file' : ChunkOutput) (buf : Bytes) :
    Lockstep SameCalls (fun r r' => r'.1 = r.1) (file.write env buf) (file'.write env buf) := by
  cases file <;> cases file' <;> apply lockstep_bind lockstep_sameCall
  all_goals
    rintro n _ rfl w w' h
    exact ⟨rfl, h⟩

theorem lockstep_openEither (filename : String) :
    Lockstep SameCalls (fun _ _ => True) (cw.openNextChunk env filename)
      (cw'.openNextChunk env filename) := by
  unfold ChunkedWriter.openNextChunk
  apply lockstep_bind lockstep_sameCall
  intro n n' _
  cases cw.backend <;> cases cw'.backend <;> exact fun _ _ h => ⟨trivial, h⟩

theorem lockstep_finalizeEither (h : SameBooks cw cw') :
    Lockstep SameCalls SameBooks (cw.finalizeCurrent env) (cw'.finalizeCurrent env) := by
  obtain ⟨backend, file', hfile, rfl⟩ := h
  unfold ChunkedWriter.finalizeCurrent
  cases hcur : cw.currentFile with
  | none =>
    obtain rfl : file' = none := by simpa [hcur] using hfile
    exact lockstep_pure ⟨backend, none, by simp [hcur], rfl⟩
  | some file =>
    obtain ⟨file', rfl⟩ := Option.isSome_iff_exists.mp (hfile.trans (by simp [hcur]))
    exact lockstep_bind (lockstep_closeEither file file') fun _ _ _ =>
      lockstep_pure ⟨backend, none, rfl, rfl⟩

theorem lockstep_rollEither (h : SameBooks cw cw') :
    Lockstep SameCalls SameBooks (cw.rollNext env) (cw'.rollNext env) := by
  unfold ChunkedWriter.rollNext
  apply lockstep_bind (lockstep_finalizeEither h)
  rintro cw _ ⟨backend, file', -, rfl⟩
  simp only
  split_ifs
  · exact lockstep_bind (lockstep_openEither _) fun file file' _ =>
      lockstep_pure ⟨backend, some file', rfl, rfl⟩
  · exact lockstep_throw _

theorem lockstep_ensureEither (h : SameBooks cw cw') :
    Lockstep SameCalls SameBooks (cw.ensureChunk env) (cw'.ensureChunk env) := by
  have hcond : (cw'.currentFile.isNone || decide (cw'.currentSize ≥ cw'.maxChunkBytes)) =
      (cw.currentFile.isNone || decide (cw.currentSize ≥ cw.maxChunkBytes)) := by
    obtain ⟨backend, file', hfile, rfl⟩ := h
    cases file' <;> cases hcur : cw.currentFile <;> simp [hcur] at hfile ⊢
  unfold ChunkedWriter.ensureChunk
  rw [hcond]
  split_ifs
  · exact lockstep_rollEither h
  · exact lockstep_pure h

/-- One call of `write` on either backend takes as many bytes. -/
theorem lockstep_writeOnEither (h : SameBooks cw cw') (buf : Bytes) :
    Lockstep SameCalls (fun r r' => r'.1 = r.1 ∧ SameBooks r.2 r'.2) (cw.write env buf)
      (cw'.write env buf) := by
  unfold ChunkedWriter.write
  apply lockstep_bind (lockstep_ensureEither h)
  rintro cw _ ⟨backend, file', hfile, rfl⟩
  unfold ChunkedWriter.writeCurrent
  cases hcur : cw.currentFile with
  | none =>
    obtain rfl : file' = none := by simpa [hcur] using hfile
    exact lockstep_throw _
  | some file =>
    obtain ⟨file', rfl⟩ := Option.isSome_iff_exists.mp (hfile.trans (by simp [hcur]))
    apply lockstep_bind (lockstep_writeEither file file' buf)
    rintro ⟨n, file₁⟩ ⟨n', file₁'⟩ hn
    obtain rfl : n' = n := hn
    exact lockstep_pure ⟨rfl, backend, some file₁', rfl, rfl⟩

end Calls

/-! ## The same parts -/

/-- The bound on the buffers may be raised. -/
theorem WriterAt.mono {H : IncrementalHash} {v s : String} {limit B B' : ℕ} {store : Store}
    {cw : ChunkedWriter H} {parts : Parts} {cur : Option Bytes}
    (h : WriterAt v s limit B store cw parts cur) (hB : B ≤ B') :
    WriterAt v s limit B' store cw parts cur := by
  obtain ⟨hparts, hcur⟩ := h.short
  refine ⟨h.volume_eq, h.snapshot_eq, h.limit_eq, h.written, h.stored, h.number, h.noFile,
    h.openPart, fun p hp => ?_, fun bytes hbytes => ?_⟩
  · have := hparts p hp
    omega
  · have := hcur bytes hbytes
    omega

/-- Counting raw bytes leaves the parts as they are. -/
theorem WriterAt.countRaw {H : IncrementalHash} {v s : String} {limit B : ℕ} {store : Store}
    {cw : ChunkedWriter H} {parts : Parts} {cur : Option Bytes}
    (h : WriterAt v s limit B store cw parts cur) (n : ℕ) :
    WriterAt v s limit B store { cw with rawCounter := n } parts cur := by
  refine ⟨h.volume_eq, h.snapshot_eq, h.limit_eq, h.written, h.stored, h.number, h.noFile,
    fun bytes hbytes => ?_, h.short⟩
  obtain ⟨hfile, hname, hsize, hhash⟩ := h.openPart bytes hbytes
  exact ⟨hfile, hname, hsize, hhash⟩

/-- Parts are known by their chunks, their sizes and all their bytes. -/
theorem Parts.ext {parts parts' : Parts} (hchunks : parts'.map Prod.fst = parts.map Prod.fst)
    (hsizes : parts'.map (·.2.length) = parts.map (·.2.length))
    (hbytes : (parts'.map Prod.snd).flatten = (parts.map Prod.snd).flatten) : parts' = parts := by
  have hsnd : parts'.map Prod.snd = parts.map Prod.snd := by
    rw [List.eq_iff_flatten_eq, List.map_map, List.map_map]
    exact ⟨hbytes, hsizes⟩
  rw [← List.zip_unzip parts', ← List.zip_unzip parts, List.unzip_eq_map, List.unzip_eq_map, hsnd,
    hchunks]

/-- The writers have written the same bytes to parts of the same sizes. -/
structure SameProgress {H : IncrementalHash} (v s : String) (limit : ℕ) (cw : ChunkedWriter H)
    (w : World) (cw' : ChunkedWriter H) (w' : World) : Prop where
  calls : SameCalls w w'
  books : SameBooks cw cw'
  written : ∃ B parts cur parts' cur', WriterAt v s limit B w.store cw parts cur ∧
    WriterAt v s limit B w'.store cw' parts' cur' ∧ content parts' cur' = content parts cur ∧
    partSizes parts' cur' = partSizes parts cur

section Progress

variable {H : IncrementalHash} {Z : StreamEncoder} {env : Env} {v s : String} {limit : ℕ}
  {cw cw' : ChunkedWriter H} {w w' : World}

theorem sameProgress_new (H : IncrementalHash) (backend backend' : BackendSpec)
    (h : SameCalls w w') :
    SameProgress v s limit (ChunkedWriter.new H backend v s limit) w
      (ChunkedWriter.new H backend' v s limit) w' :=
  ⟨h, ⟨backend', none, rfl, rfl⟩, 0, [], none, [], none, writerAt_new H backend v s limit 0 _,
    writerAt_new H backend' v s limit 0 _, rfl, rfl⟩

theorem SameProgress.tick (h : SameProgress v s limit cw w cw' w') :
    SameProgress v s limit cw w.tick cw' w'.tick :=
  ⟨congrArg (· + 1) h.calls, h.books, h.written⟩

/-- One call of `write`. -/
theorem SameProgress.write (h : SameProgress v s limit cw w cw' w') (buf : Bytes) :
    Paired (fun r u r' u' => r'.1 = r.1 ∧ SameProgress v s limit r.2 u r'.2 u') SameCalls
      (cw.write env buf) (cw'.write env buf) w w' := by
  obtain ⟨B, parts, cur, parts', cur', hat, hat', hcontent, hsizes⟩ := h.written
  have hat := hat.mono (Nat.le_max_left B buf.length)
  have hat' := hat'.mono (Nat.le_max_left B buf.length)
  have hpaired : InStep SameCalls (fun r r' => r'.1 = r.1 ∧ SameBooks r.2 r'.2)
      (cw.write env buf) (cw'.write env buf) w w' :=
    (lockstep_writeOnEither h.books buf).inStep h.calls
  refine Paired.mono (Paired.and hpaired (hat.write_spec (.refl w) (Nat.le_max_right _ _))
    (hat'.write_spec (.refl w') (Nat.le_max_right _ _))) ?_ fun _ _ he => he.1
  rintro ⟨n, cw₁⟩ u ⟨n', cw₁'⟩ u' ⟨⟨⟨hn, hbooks⟩, hcalls⟩, hside, hside'⟩
  obtain rfl : n' = n := hn
  obtain ⟨-, -, -, parts₁, cur₁, hat₁, hcontent₁, hsizes₁⟩ := hside
  obtain ⟨-, -, -, parts₁', cur₁', hat₁', hcontent₁', hsizes₁'⟩ := hside'
  refine ⟨rfl, hcalls, hbooks, _, parts₁, cur₁, parts₁', cur₁', hat₁, hat₁', ?_, ?_⟩
  · rw [hcontent₁, hcontent₁', hcontent]
  · rw [hsizes₁, hsizes₁', hsizes]

theorem SameProgress.writeAll (fuel : ℕ) {w w' : World} {cw cw' : ChunkedWriter H}
    (h : SameProgress v s limit cw w cw' w') (buf : Bytes) :
    Paired (SameProgress v s limit) SameCalls (ChunkedWriter.writeAll env fuel cw buf)
      (ChunkedWriter.writeAll env fuel cw' buf) w w' := by
  induction fuel generalizing cw cw' buf w w' with
  | zero =>
    apply (h.write buf).bind
    rintro ⟨n, cw₁⟩ u ⟨n', cw₁'⟩ u' ⟨hn, h'⟩
    obtain rfl : n' = n := hn
    by_cases hrest : buf.drop n' = []
    · simp only [hrest, if_true]
      exact h'
    · simp only [hrest, if_false]
      exact ⟨rfl, h'.calls⟩
  | succ fuel ih =>
    apply (h.write buf).bind
    rintro ⟨n, cw₁⟩ u ⟨n', cw₁'⟩ u' ⟨hn, h'⟩
    obtain rfl : n' = n := hn
    by_cases hrest : buf.drop n' = []
    · simp only [hrest, if_true]
      exact h'
    · simp only [hrest, if_false]
      exact ih h' _

theorem SameProgress.writeBuffers (h : SameProgress v s limit cw w cw' w')
    (bufs : List Bytes) :
    Paired (SameProgress v s limit) SameCalls (cw.writeBuffers env bufs)
      (cw'.writeBuffers env bufs) w w' :=
  paired_foldlM (I := fun _ => SameProgress v s limit) bufs
    (fun buf _ _ _ _ _ h' => h'.writeAll buf.length buf) h

/-- After `finish` both destinations hold the same parts, and they are reported alike. -/
theorem SameProgress.finish (h : SameProgress v s limit cw w cw' w') :
    Paired (fun chunks u chunks' u' => SameCalls u u' ∧ chunks' = chunks ∧
        ∃ parts, chunks = parts.map Prod.fst ∧ Stored H u.store v s parts ∧
          Stored H u'.store v s parts)
      SameCalls (cw.finish env) (cw'.finish env) w w' := by
  obtain ⟨B, parts, cur, parts', cur', hat, hat', hcontent, hsizes⟩ := h.written
  have hpaired : InStep SameCalls SameBooks (cw.finalizeCurrent env) (cw'.finalizeCurrent env)
      w w' := (lockstep_finalizeEither h.books).inStep h.calls
  have hboth := Paired.and hpaired (hat.finalizeCurrent_spec (.refl w))
    (hat'.finalizeCurrent_spec (.refl w'))
  unfold ChunkedWriter.finish
  apply Paired.bind (hboth.mono (fun _ _ _ _ hq => hq) fun _ _ he => he.1)
  rintro cw₁ u cw₁' u' ⟨⟨hbooks, hcalls⟩, hside, hside'⟩
  obtain ⟨-, parts₁, hat₁, hcontent₁, hsizes₁⟩ := hside
  obtain ⟨-, parts₁', hat₁', hcontent₁', hsizes₁'⟩ := hside'
  have hchunks : cw₁'.writtenChunks = cw₁.writtenChunks := by
    obtain ⟨backend, file, -, rfl⟩ := hbooks
    rfl
  have hsame : parts₁' = parts₁ := by
    apply Parts.ext
    · rw [← hat₁.written, ← hat₁'.written, hchunks]
    · rw [← hsizes, ← hsizes₁'] at hsizes₁
      exact (congrArg Boxes.closed hsizes₁).symm
    · rw [hcontent, ← hcontent₁] at hcontent₁'
      simpa [content] using hcontent₁'
  refine ⟨hcalls, hchunks, parts₁, hat₁.written, hat₁.stored, ?_⟩
  rw [← hsame]
  exact hat₁'.stored

/-! ## Whole snapshots -/

/-- The sessions have compressed the same data. -/
structure SameSessions (v s : String) (limit : ℕ) (session : CompressSession H Z) (w : World)
    (session' : CompressSession H Z) (w' : World) : Prop where
  encoder : session'.encoder = session.encoder
  writers : SameProgress v s limit session.writer w session'.writer w'

theorem SameProgress.countRaw (h : SameProgress v s limit cw w cw' w') (n : ℕ) :
    SameProgress v s limit { cw with rawCounter := cw.rawCounter + n } w
      { cw' with rawCounter := cw'.rawCounter + n } w' := by
  obtain ⟨hcalls, ⟨backend, file, hfile, rfl⟩, B, parts, cur, parts', cur', hat, hat', hsame⟩ := h
  exact ⟨hcalls, ⟨backend, file, hfile, rfl⟩, B, parts, cur, parts', cur', hat.countRaw _,
    hat'.countRaw _, hsame⟩

theorem SameSessions.processItem {session session' : CompressSession H Z}
    (h : SameSessions v s limit session w session' w') (item : Except BbkarError BtrfsSendChunk) :
    Paired (SameSessions v s limit) SameCalls (session.processItem env item)
      (session'.processItem env item) w w' := by
  obtain ⟨henc, hprogress⟩ := h
  cases item with
  | error e => exact ⟨rfl, hprogress.calls⟩
  | ok chunk =>
    cases chunk with
    | processExit code stderr => exact ⟨henc, hprogress⟩
    | stdoutBytes data offset =>
      have hcounted := hprogress.countRaw data.length
      unfold CompressSession.processItem CompressSession.writeChunk CompressSession.countRaw
      simp only [henc]
      apply paired_afterCall hprogress.calls _ hprogress.calls.tick
      apply (hcounted.tick.writeBuffers _).bind
      exact fun cw₁ u cw₁' u' h₁ => ⟨rfl, h₁⟩

theorem SameSessions.finish {session session' : CompressSession H Z}
    (h : SameSessions v s limit session w session' w') :
    Paired (SameProgress v s limit) SameCalls (session.finish env) (session'.finish env) w w' := by
  obtain ⟨henc, hprogress⟩ := h
  unfold CompressSession.finish
  rw [henc]
  exact paired_afterCall hprogress.calls (hprogress.tick.writeBuffers _) hprogress.calls.tick

/-- A write to either backend reports the same chunks, and leaves the same parts for them. -/
theorem paired_writeSubvolumeToDest (backend backend' : BackendSpec) (maxMib : ℕ)
    (stream : SendStream) (h : SameCalls w w') :
    Paired (fun out u out' u' => SameCalls u u' ∧ out' = out ∧
        ∃ parts, out.1 = parts.map Prod.fst ∧ Stored H u.store v s parts ∧
          Stored H u'.store v s parts)
      SameCalls (writeSubvolumeToDest H Z env backend v s maxMib stream)
      (writeSubvolumeToDest H Z env backend' v s maxMib stream) w w' := by
  unfold writeSubvolumeToDest CompressSession.new CompressSession.processAll
  refine Paired.bind (Q := SameSessions v s (maxMib * 1024 * 1024)) (paired_afterCall h
    ⟨rfl, sameProgress_new H backend backend' h.tick⟩ h.tick) fun session u session' u' hs => ?_
  refine Paired.bind (Q := SameProgress v s (maxMib * 1024 * 1024)) ?_
    fun cw u cw' u' hprogress => ?_
  · apply Paired.bind (paired_foldlM (I := fun _ => SameSessions v s (maxMib * 1024 * 1024)) stream
      (fun item _ _ _ _ _ h' => h'.processItem item) hs)
    exact fun session u session' u' hs => hs.finish
  · have hraw : cw'.rawCounter = cw.rawCounter := by
      obtain ⟨backend, file, -, rfl⟩ := hprogress.books
      rfl
    simp only [hraw]
    apply hprogress.finish.bind
    rintro chunks u _ u' ⟨hcalls, rfl, hparts⟩
    exact ⟨hcalls, rfl, hparts⟩

theorem applyLeftover_calls (env : Env) (v s : String) (w : World) :
    (applyLeftover env v s w).calls = w.calls := by
  unfold applyLeftover
  generalize env.leftover w.calls = files
  induction files generalizing w with
  | nil => rfl
  | cons file files ih => exact ih _

theorem paired_writeSubvolume (backend backend' : BackendSpec) (maxMib : ℕ)
    (stream : SendStream) (h : SameCalls w w') :
    Paired (fun out u out' u' => SameCalls u u' ∧ out' = out ∧
        ∃ parts, out.1 = parts.map Prod.fst ∧ Stored H u.store v s parts ∧
          Stored H u'.store v s parts)
      SameCalls (writeSubvolume H Z env backend v s maxMib stream)
      (writeSubvolume H Z env backend' v s maxMib stream) w w' := by
  unfold writeSubvolume
  refine Paired.bind (Q := fun _ u _ u' => SameCalls u u') h fun _ u _ u' h' => ?_
  apply (paired_writeSubvolumeToDest backend backend' maxMib stream h').afterError
  intro u u' hcalls
  unfold SameCalls
  rw [applyLeftover_calls, applyLeftover_calls]
  exact hcalls

end Progress

end Bbkar
