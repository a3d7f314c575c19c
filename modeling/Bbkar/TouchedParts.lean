import Bbkar.RunSpec

/-!
# The part files a write touches

A write that succeeds has changed no part files but those it reports: the open file has the
number of the part, and every number up to it is either reported or the open one's. A write that
failed may leave other files.
-/
namespace Bbkar
open Codec Effects Function

/-- The object that an output writes to. -/
def ChunkOutput.key : ChunkOutput → String
  | .localFile key => key
  | .remote key _ => key

section Writer

variable {H : IncrementalHash} {env : Env} {v s : String} {store₀ : Store} {w : World}

theorem ChunkOutput.close_touches (file : ChunkOutput) (w : World) :
    wp (file.close env) (fun _ w' => ∀ k, k ≠ file.key → w'.store k = w.store k)
      (fun _ _ => True) w := by
  cases file with
  | localFile key =>
    simp only [close, wp_bind, wp_call, wp_pure]
    exact ⟨fun _ _ _ => rfl, fun _ _ => trivial⟩
  | remote key buffered =>
    simp only [close, wp_bind, wp_call, wp_putObject]
    refine ⟨fun _ k (hk : k ≠ key) => ?_, fun _ _ => trivial⟩
    rw [World.log_store, update_of_ne hk, World.tick_store]

theorem ChunkOutput.write_touches (file : ChunkOutput) (buf : Bytes) (w : World) :
    wp (file.write env buf)
      (fun r w' => r.2.key = file.key ∧ ∀ k, k ≠ file.key → w'.store k = w.store k)
      (fun _ _ => True) w := by
  cases file with
  | localFile key =>
    simp only [write, wp_bind, wp_call, wp_get, wp_putObject, wp_pure, true_and]
    refine ⟨fun _ k (hk : k ≠ key) => ?_, fun _ _ => trivial⟩
    rw [World.log_store, update_of_ne hk, World.tick_store]
  | remote key buffered =>
    simp only [write, wp_bind, wp_call, wp_pure]
    exact ⟨fun _ => ⟨rfl, fun _ _ => rfl⟩, fun _ _ => trivial⟩

theorem openNextChunk_touches (cw : ChunkedWriter H) (filename : String) (w : World) :
    wp (cw.openNextChunk env filename)
      (fun file w' => file.key = pathInSnapshot cw.volume cw.snapshot filename ∧
        ∀ k, k ≠ pathInSnapshot cw.volume cw.snapshot filename → w'.store k = w.store k)
      (fun _ _ => True) w := by
  unfold ChunkedWriter.openNextChunk
  simp only [wp_bind, wp_call]
  refine ⟨fun _ => ?_, fun _ _ => trivial⟩
  cases cw.backend with
  | localDir =>
    simp only [wp_bind, wp_putObject, wp_pure]
    refine ⟨rfl, fun k hk => ?_⟩
    rw [World.log_store, update_of_ne hk, World.tick_store]
  | objectStorage => exact ⟨rfl, fun _ _ => rfl⟩

/-- Since `store₀` only parts with numbers up to the writer's have changed. Each of these has
been finished, or is open. -/
structure Touched (v s : String) (store₀ : Store) (cw : ChunkedWriter H) (w : World) : Prop where
  volume_eq : cw.volume = v
  snapshot_eq : cw.snapshot = s
  openKey : ∀ file, cw.currentFile = some file →
    file.key = partKey v s cw.partNumber ∧ 0 < cw.partNumber
  names : ∀ n, 0 < n → n ≤ cw.partNumber →
    partFilename n ∈ cw.writtenChunks.map (·.filename) ∨
      cw.currentFile.isSome = true ∧ cw.currentFilename = partFilename n
  untouched : ∀ key, (∀ n, 0 < n → n ≤ cw.partNumber → key ≠ partKey v s n) →
    w.store key = store₀ key

theorem Touched.tick {cw : ChunkedWriter H} (h : Touched v s store₀ cw w) :
    Touched v s store₀ cw w.tick :=
  ⟨h.volume_eq, h.snapshot_eq, h.openKey, h.names, h.untouched⟩

theorem Touched.countRaw {Z : StreamEncoder} {session : CompressSession H Z}
    (h : Touched v s store₀ session.writer w) (item : Except BbkarError BtrfsSendChunk) :
    Touched v s store₀ (session.countRaw item).writer w := by
  unfold CompressSession.countRaw
  split
  · exact ⟨h.volume_eq, h.snapshot_eq, h.openKey, h.names, h.untouched⟩
  · exact h

theorem Touched.finalizeCurrent {cw : ChunkedWriter H} (h : Touched v s store₀ cw w) :
    wp (cw.finalizeCurrent env)
      (fun cw' w' => Touched v s store₀ cw' w' ∧ cw'.currentFile = none) (fun _ _ => True) w := by
  unfold ChunkedWriter.finalizeCurrent
  cases hfile : cw.currentFile with
  | none => exact ⟨h, hfile⟩
  | some file =>
    obtain ⟨hkey, hpos⟩ := h.openKey file hfile
    simp only [wp_bind, wp_pure]
    refine wp_mono_ok (file.close_touches w) fun _ w' hother => ⟨?_, trivial⟩
    refine ⟨h.volume_eq, h.snapshot_eq, by simp, fun n hn hle => Or.inl ?_, fun key hne => ?_⟩
    · rw [List.map_append]
      rcases h.names n hn hle with hname | ⟨-, hname⟩
      · exact List.mem_append_left _ hname
      · exact List.mem_append_right _ (by simp [ChunkedWriter.currentChunk, hname])
    · rw [hother key (hkey ▸ hne _ hpos le_rfl), h.untouched key hne]

theorem Touched.rollNext {cw : ChunkedWriter H} (h : Touched v s store₀ cw w) :
    wp (cw.rollNext env) (fun cw' w' => Touched v s store₀ cw' w') (fun _ _ => True) w := by
  unfold ChunkedWriter.rollNext
  rw [wp_bind]
  refine wp_mono_ok h.finalizeCurrent ?_
  rintro cw₁ w₁ ⟨h₁, hclosed⟩
  split_ifs
  · have hkeys : pathInSnapshot cw₁.volume cw₁.snapshot (partFilename (cw₁.partNumber + 1)) =
        partKey v s (cw₁.partNumber + 1) := by
      rw [h₁.volume_eq, h₁.snapshot_eq]
      rfl
    simp only [wp_bind, wp_pure]
    refine wp_mono_ok (openNextChunk_touches cw₁ _ w₁) ?_
    rintro file w₂ ⟨hkey, hother⟩
    rw [hkeys] at hkey hother
    refine ⟨h₁.volume_eq, h₁.snapshot_eq, ?_, fun n hn hle => ?_, fun key hne => ?_⟩
    · rintro file' hfile'
      obtain rfl := Option.some.inj hfile'
      exact ⟨hkey, Nat.succ_pos _⟩
    · rcases Nat.le_succ_iff.mp hle with hle | rfl
      · rcases h₁.names n hn hle with hname | ⟨hsome, -⟩
        · exact Or.inl hname
        · simp [hclosed] at hsome
      · exact Or.inr ⟨rfl, rfl⟩
    · rw [hother key (hne _ (Nat.succ_pos _) le_rfl)]
      exact h₁.untouched key fun n hn hle => hne n hn (Nat.le_succ_of_le hle)
  · trivial

theorem Touched.write {cw : ChunkedWriter H} (h : Touched v s store₀ cw w) (buf : Bytes) :
    wp (cw.write env buf) (fun r w' => Touched v s store₀ r.2 w') (fun _ _ => True) w := by
  have hensured : wp (cw.ensureChunk env) (fun cw' w' => Touched v s store₀ cw' w')
      (fun _ _ => True) w := by
    unfold ChunkedWriter.ensureChunk
    split_ifs
    · exact h.rollNext
    · exact h
  unfold ChunkedWriter.write ChunkedWriter.writeCurrent
  rw [wp_bind]
  refine wp_mono_ok hensured fun cw₁ w₁ h₁ => ?_
  cases hfile : cw₁.currentFile with
  | none => trivial
  | some file =>
    obtain ⟨hkey, hpos⟩ := h₁.openKey file hfile
    simp only [wp_bind, wp_pure]
    refine wp_mono_ok (file.write_touches buf w₁) ?_
    rintro ⟨written, file'⟩ w₂ ⟨hsame, hother⟩
    refine ⟨h₁.volume_eq, h₁.snapshot_eq, ?_, fun n hn hle => ?_, fun key hne => ?_⟩
    · rintro file'' hfile''
      obtain rfl := Option.some.inj hfile''
      exact ⟨hsame.trans hkey, hpos⟩
    · rcases h₁.names n hn hle with hname | ⟨-, hname⟩
      · exact Or.inl hname
      · exact Or.inr ⟨rfl, hname⟩
    · rw [hother key (hkey ▸ hne _ hpos le_rfl), h₁.untouched key hne]

theorem Touched.writeAll (fuel : ℕ) {w : World} {cw : ChunkedWriter H}
    (h : Touched v s store₀ cw w) (buf : Bytes) :
    wp (ChunkedWriter.writeAll env fuel cw buf) (fun cw' w' => Touched v s store₀ cw' w')
      (fun _ _ => True) w := by
  unfold ChunkedWriter.writeAll
  rw [wp_bind]
  refine wp_mono_ok (h.write buf) ?_
  rintro ⟨written, cw'⟩ w' h'
  simp only at h' ⊢
  split_ifs
  · exact h'
  · cases fuel with
    | zero => trivial
    | succ fuel => exact Touched.writeAll fuel h' _

theorem Touched.writeBuffers {cw : ChunkedWriter H} (h : Touched v s store₀ cw w)
    (bufs : List Bytes) :
    wp (cw.writeBuffers env bufs) (fun cw' w' => Touched v s store₀ cw' w')
      (fun _ _ => True) w :=
  wp_foldlM (I := fun _ cw' w' => Touched v s store₀ cw' w') bufs cw
    (fun buf _ _ _ h' => h'.writeAll buf.length buf) h

end Writer

section Write

variable {H : IncrementalHash} {Z : StreamEncoder} {env : Env} {v s : String} {w : World}

theorem Touched.processItem {store₀ : Store} {session : CompressSession H Z}
    (h : Touched v s store₀ session.writer w) (item : Except BbkarError BtrfsSendChunk) :
    wp (CompressSession.processItem env session item)
      (fun session' w' => Touched v s store₀ session'.writer w') (fun _ _ => True) w := by
  unfold CompressSession.processItem
  cases item with
  | error e => trivial
  | ok chunk =>
    have hcounted := h.countRaw (.ok chunk)
    unfold CompressSession.writeChunk
    cases chunk with
    | processExit code stderr => exact hcounted
    | stdoutBytes data offset =>
      simp only [wp_bind, wp_call, wp_pure]
      exact ⟨fun _ => wp_mono_ok (hcounted.tick.writeBuffers _) fun _ _ h' => h',
        fun _ _ => trivial⟩

/-- What was changed since `store₀` are part files of the snapshot that the chunks name. -/
def TouchedOnly (v s : String) (store₀ : Store) (chunks : List ChunkFilename) (store : Store) :
    Prop :=
  ∀ key, (∀ n, partFilename n ∈ chunks.map (·.filename) → key ≠ partKey v s n) →
    store key = store₀ key

end Write

end Bbkar
