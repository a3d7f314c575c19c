import Bbkar.TouchedParts

/-!
# What a write does to the world

Writing a snapshot makes calls and changes part files of the snapshot, one at a time. What
each of these keeps holds at every moment of the write and however it ends.
-/
namespace Bbkar
open Codec Effects Function

/-- Calls keep the property, and so does a change of one part file of the snapshot. -/
structure KeptByParts (v s : String) (I : World → Prop) : Prop where
  tick : ∀ w, I w → I w.tick
  put : ∀ w n (bytes : Option Bytes), I w →
    I (w.log (.writePart (partKey v s n)) (update w.store (partKey v s n) (bytes.map .part)))

/-- The writer is at work on the snapshot, and has one of its part files open, if any. -/
structure WritesParts {H : IncrementalHash} (v s : String) (cw : ChunkedWriter H) : Prop where
  volume_eq : cw.volume = v
  snapshot_eq : cw.snapshot = s
  file : ∀ file, cw.currentFile = some file → PartsOf v s file.key

theorem writesParts_new (H : IncrementalHash) (backend : BackendSpec) (v s : String)
    (limit : ℕ) : WritesParts v s (ChunkedWriter.new H backend v s limit) :=
  ⟨rfl, rfl, by simp [ChunkedWriter.new]⟩

theorem WritesParts.countRaw {H : IncrementalHash} {Z : StreamEncoder} {v s : String}
    {session : CompressSession H Z} (h : WritesParts v s session.writer)
    (item : Except BbkarError BtrfsSendChunk) :
    WritesParts v s (session.countRaw item).writer := by
  unfold CompressSession.countRaw
  split
  · exact ⟨h.volume_eq, h.snapshot_eq, h.file⟩
  · exact h

namespace KeptByParts

section Writer

variable {H : IncrementalHash} {env : Env} {v s : String} {I : World → Prop} {w : World}
  {cw : ChunkedWriter H}

theorem put_key (h : KeptByParts v s I) {key : String} (hkey : PartsOf v s key) (bytes : Bytes)
    (hw : I w) : I (w.log (.writePart key) (update w.store key (some (.part bytes)))) := by
  obtain ⟨n, rfl⟩ := hkey
  exact h.put w n (some bytes) hw

theorem leftover (h : KeptByParts v s I) (env : Env) (hw : I w) : I (applyLeftover env v s w) := by
  unfold applyLeftover
  generalize env.leftover w.calls = files
  induction files generalizing w with
  | nil => exact hw
  | cons file files ih => exact ih (h.put w file.1 file.2 hw)

theorem close (h : KeptByParts v s I) {file : ChunkOutput} (hfile : PartsOf v s file.key)
    (hw : I w) : wp (file.close env) (fun _ => I) (fun _ => I) w := by
  have htick := h.tick w hw
  cases file with
  | localFile key =>
    simp only [ChunkOutput.close, wp_bind, wp_call, wp_pure]
    exact ⟨fun _ => htick, fun _ _ => htick⟩
  | remote key buffered =>
    simp only [ChunkOutput.close, wp_bind, wp_call, wp_putObject]
    exact ⟨fun _ => h.put_key hfile buffered htick, fun _ _ => htick⟩

theorem writeFile (h : KeptByParts v s I) {file : ChunkOutput} (hfile : PartsOf v s file.key)
    (buf : Bytes) (hw : I w) :
    wp (file.write env buf) (fun r w' => PartsOf v s r.2.key ∧ I w') (fun _ => I) w := by
  have htick := h.tick w hw
  cases file with
  | localFile key =>
    simp only [ChunkOutput.write, wp_bind, wp_call, wp_get, wp_putObject, wp_pure]
    exact ⟨fun _ => ⟨hfile, h.put_key hfile _ htick⟩, fun _ _ => htick⟩
  | remote key buffered =>
    simp only [ChunkOutput.write, wp_bind, wp_call, wp_pure]
    exact ⟨fun _ => ⟨hfile, htick⟩, fun _ _ => htick⟩

theorem openNextChunk (h : KeptByParts v s I) {filename : String}
    (hkey : PartsOf v s (pathInSnapshot cw.volume cw.snapshot filename)) (hw : I w) :
    wp (cw.openNextChunk env filename) (fun file w' => PartsOf v s file.key ∧ I w')
      (fun _ => I) w := by
  have htick := h.tick w hw
  unfold ChunkedWriter.openNextChunk
  simp only [wp_bind, wp_call]
  refine ⟨fun _ => ?_, fun _ _ => htick⟩
  cases cw.backend with
  | localDir =>
    simp only [wp_bind, wp_putObject, wp_pure]
    exact ⟨hkey, h.put_key hkey [] htick⟩
  | objectStorage => exact ⟨hkey, htick⟩

theorem finalizeCurrent (h : KeptByParts v s I) (hcw : WritesParts v s cw) (hw : I w) :
    wp (cw.finalizeCurrent env) (fun cw' w' => WritesParts v s cw' ∧ I w') (fun _ => I) w := by
  unfold ChunkedWriter.finalizeCurrent
  cases hfile : cw.currentFile with
  | none => exact ⟨hcw, hw⟩
  | some file =>
    simp only [wp_bind, wp_pure]
    refine wp_mono_ok (h.close (hcw.file file hfile) hw) fun _ w' hw' => ?_
    exact ⟨⟨hcw.volume_eq, hcw.snapshot_eq, by simp⟩, hw'⟩

theorem rollNext (h : KeptByParts v s I) (hcw : WritesParts v s cw) (hw : I w) :
    wp (cw.rollNext env) (fun cw' w' => WritesParts v s cw' ∧ I w') (fun _ => I) w := by
  unfold ChunkedWriter.rollNext
  rw [wp_bind]
  apply wp_mono_ok (h.finalizeCurrent hcw hw)
  intro cw₁ w₁ h₁
  obtain ⟨hcw₁, hw₁⟩ := h₁
  split_ifs
  · simp only [wp_bind, wp_pure]
    refine wp_mono_ok (h.openNextChunk ⟨cw₁.partNumber + 1, ?_⟩ hw₁) fun file w₂ h₂ => ?_
    · rw [hcw₁.volume_eq, hcw₁.snapshot_eq, partKey]
    · exact ⟨⟨hcw₁.volume_eq, hcw₁.snapshot_eq, fun _ hf => Option.some.inj hf ▸ h₂.1⟩, h₂.2⟩
  · exact hw₁

theorem write (h : KeptByParts v s I) (hcw : WritesParts v s cw) (buf : Bytes) (hw : I w) :
    wp (cw.write env buf) (fun r w' => WritesParts v s r.2 ∧ I w') (fun _ => I) w := by
  have hensured : wp (cw.ensureChunk env) (fun cw' w' => WritesParts v s cw' ∧ I w')
      (fun _ => I) w := by
    unfold ChunkedWriter.ensureChunk
    split_ifs
    · exact h.rollNext hcw hw
    · exact ⟨hcw, hw⟩
  unfold ChunkedWriter.write ChunkedWriter.writeCurrent
  rw [wp_bind]
  apply wp_mono_ok hensured
  intro cw₁ w₁ h₁
  obtain ⟨hcw₁, hw₁⟩ := h₁
  cases hfile : cw₁.currentFile with
  | none => exact hw₁
  | some file =>
    simp only [wp_bind, wp_pure]
    refine wp_mono_ok (h.writeFile (hcw₁.file file hfile) buf hw₁) fun r w₂ h₂ => ?_
    exact ⟨⟨hcw₁.volume_eq, hcw₁.snapshot_eq, fun _ hf => Option.some.inj hf ▸ h₂.1⟩, h₂.2⟩

theorem writeAll (h : KeptByParts v s I) (fuel : ℕ) {w : World} {cw : ChunkedWriter H}
    (hcw : WritesParts v s cw) (buf : Bytes) (hw : I w) :
    wp (ChunkedWriter.writeAll env fuel cw buf) (fun cw' w' => WritesParts v s cw' ∧ I w')
      (fun _ => I) w := by
  unfold ChunkedWriter.writeAll
  rw [wp_bind]
  apply wp_mono_ok (h.write hcw buf hw)
  intro r w' h'
  obtain ⟨hcw', hw'⟩ := h'
  dsimp only
  split_ifs
  · exact ⟨hcw', hw'⟩
  · cases fuel with
    | zero => exact hw'
    | succ fuel => exact KeptByParts.writeAll h fuel hcw' _ hw'

theorem writeBuffers (h : KeptByParts v s I) (hcw : WritesParts v s cw) (bufs : List Bytes)
    (hw : I w) :
    wp (cw.writeBuffers env bufs) (fun cw' w' => WritesParts v s cw' ∧ I w') (fun _ => I) w :=
  wp_foldlM (I := fun _ cw' w' => WritesParts v s cw' ∧ I w') bufs cw
    (fun buf _ _ _ h' => h.writeAll buf.length h'.1 buf h'.2) ⟨hcw, hw⟩

end Writer

section Write

variable {H : IncrementalHash} {Z : StreamEncoder} {env : Env} {v s : String}
  {I : World → Prop} {w : World}

theorem processItem (h : KeptByParts v s I) {session : CompressSession H Z}
    (hcw : WritesParts v s session.writer) (item : Except BbkarError BtrfsSendChunk)
    (hw : I w) :
    wp (CompressSession.processItem env session item)
      (fun session' w' => WritesParts v s session'.writer ∧ I w') (fun _ => I) w := by
  unfold CompressSession.processItem
  cases item with
  | error e => exact hw
  | ok chunk =>
    have hcounted := hcw.countRaw (.ok chunk)
    have htick := h.tick w hw
    unfold CompressSession.writeChunk
    cases chunk with
    | processExit code stderr => exact ⟨hcounted, hw⟩
    | stdoutBytes data offset =>
      simp only [wp_bind, wp_call, wp_pure]
      exact ⟨fun _ => h.writeBuffers hcounted _ htick, fun _ _ => htick⟩

/-- A property that holds when the write starts, and that its calls and changes keep, holds when
it returns and when it fails. -/
theorem writeSubvolume (h : KeptByParts v s I) (backend : BackendSpec) (maxMib : ℕ)
    (stream : SendStream) (hw : I (w.sending v s stream)) :
    wp (writeSubvolume H Z env backend v s maxMib stream) (fun _ => I) (fun _ => I) w := by
  unfold Bbkar.writeSubvolume
  rw [wp_bind, wp_modify, wp_afterError]
  suffices hdest : wp (writeSubvolumeToDest H Z env backend v s maxMib stream) (fun _ => I)
      (fun _ => I) (w.sending v s stream) from
    wp_mono hdest (fun _ _ h' => h') fun _ _ h' => h.leftover env h'
  have htick := h.tick _ hw
  unfold writeSubvolumeToDest CompressSession.new CompressSession.processAll
    CompressSession.finish ChunkedWriter.finish
  simp only [wp_bind, wp_call, wp_pure]
  refine ⟨fun _ => ?_, fun _ _ => htick⟩
  refine wp_mono_ok (wp_foldlM (I := fun _ session w' =>
    WritesParts v s session.writer ∧ I w') stream _ ?_ ⟨writesParts_new H backend v s _, htick⟩) ?_
  · exact fun item rest session w' h' => h.processItem h'.1 item h'.2
  · intro session w₁ h₁
    have htick₁ := h.tick w₁ h₁.2
    refine ⟨fun _ => ?_, fun _ _ => htick₁⟩
    refine wp_mono_ok (h.writeBuffers h₁.1 _ htick₁) fun cw w₂ h₂ => ?_
    exact wp_mono_ok (h.finalizeCurrent h₂.1 h₂.2) fun _ _ h₃ => h₃.2

end Write

end KeptByParts

end Bbkar
