import Bbkar.ChunkedWriter
import Bbkar.Lockstep

/-!
# The writer with its clocks

The same writer with the time it measures. Subtractions of counters are checked here, and
panic when they underflow. Measured times are given in the order in which they are taken.
They change no result but the times in the statistics, and no subtraction panics.
-/
namespace Bbkar
open Codec Effects

/-- A subtraction of `u64` values. -/
def subU64 (a b : ℕ) : Act ℕ := if b ≤ a then return a - b else throw .panic

structure TimedWriter (H : IncrementalHash) extends ChunkedWriter H where
  writeNanos : ℕ
  readNanos : ℕ
  writeNanosAtChunkStart : ℕ
  readNanosAtChunkStart : ℕ
  measured : ℕ

namespace TimedWriter

variable {H : IncrementalHash}

def new (H : IncrementalHash) (backend : BackendSpec) (volume snapshot : String)
    (maxChunkBytes : ℕ) : TimedWriter H :=
  { ChunkedWriter.new H backend volume snapshot maxChunkBytes with
    writeNanos := 0
    readNanos := 0
    writeNanosAtChunkStart := 0
    readNanosAtChunkStart := 0
    measured := 0 }

def addWriteTime (elapsed : ℕ → ℕ) (cw : TimedWriter H) : TimedWriter H :=
  { cw with writeNanos := cw.writeNanos + elapsed cw.measured, measured := cw.measured + 1 }

def addReadTime (elapsed : ℕ → ℕ) (cw : TimedWriter H) : TimedWriter H :=
  { cw with readNanos := cw.readNanos + elapsed cw.measured, measured := cw.measured + 1 }

/-- The times of the chunk are logged only. -/
def finalizeCurrent (env : Env) (cw : TimedWriter H) : Act (TimedWriter H) :=
  match cw.currentFile with
  | none => return cw
  | some file => do
    file.close env
    let rawSize ← subU64 cw.rawCounter cw.rawAtLastRoll
    let _ ← subU64 cw.readNanos cw.readNanosAtChunkStart
    let _ ← subU64 cw.writeNanos cw.writeNanosAtChunkStart
    return { cw with
      currentHasher := H.init
      rawAtLastRoll := cw.rawCounter
      writtenChunks := cw.writtenChunks ++ [{ cw.currentChunk with rawSize := some rawSize }]
      currentFile := none }

def rollNext (env : Env) (cw : TimedWriter H) : Act (TimedWriter H) := do
  let cw ← cw.finalizeCurrent env
  if cw.partNumber + 1 < 2 ^ 32 then
    let filename := partFilename (cw.partNumber + 1)
    let file ← cw.openNextChunk env filename
    return { cw with
      partNumber := cw.partNumber + 1
      currentFile := some file
      currentFilename := filename
      currentSize := 0
      currentHasher := H.init
      writeNanosAtChunkStart := cw.writeNanos
      readNanosAtChunkStart := cw.readNanos }
  else throw .panic

def ensureChunk (env : Env) (cw : TimedWriter H) : Act (TimedWriter H) :=
  if cw.currentFile.isNone || decide (cw.currentSize ≥ cw.maxChunkBytes) then cw.rollNext env
  else return cw

def writeCurrent (env : Env) (elapsed : ℕ → ℕ) (cw : TimedWriter H) (buf : Bytes) :
    Act (ℕ × TimedWriter H) :=
  match cw.currentFile with
  | none => throw .panic
  | some file => do
    let (written, file) ← file.write env buf
    let cw := cw.addWriteTime elapsed
    return (written, { cw with
      currentFile := some file
      currentHasher := H.update cw.currentHasher (buf.take written)
      currentSize := cw.currentSize + written })

def write (env : Env) (elapsed : ℕ → ℕ) (cw : TimedWriter H) (buf : Bytes) :
    Act (ℕ × TimedWriter H) := do
  let cw ← cw.ensureChunk env
  cw.writeCurrent env elapsed buf

def writeAll (env : Env) (elapsed : ℕ → ℕ) :
    ℕ → TimedWriter H → Bytes → Act (TimedWriter H)
  | fuel, cw, buf => do
    let (written, cw) ← cw.write env elapsed buf
    if buf.drop written = [] then return cw
    else
      match fuel with
      | 0 => throw .diverges
      | fuel + 1 => writeAll env elapsed fuel cw (buf.drop written)

def writeBuffers (env : Env) (elapsed : ℕ → ℕ) (cw : TimedWriter H) (bufs : List Bytes) :
    Act (TimedWriter H) :=
  bufs.foldlM (fun cw buf => writeAll env elapsed buf.length cw buf) cw

/-- The counters outlive the writer. -/
def finish (env : Env) (elapsed : ℕ → ℕ) (cw : TimedWriter H) : Act (TimedWriter H) := do
  let cw ← cw.finalizeCurrent env
  return cw.addWriteTime elapsed

end TimedWriter

structure TimedSession (H : IncrementalHash) (Z : StreamEncoder) where
  encoder : Z.State
  writer : TimedWriter H

namespace TimedSession

variable {H : IncrementalHash} {Z : StreamEncoder}

def new (env : Env) (writer : TimedWriter H) : Act (TimedSession H Z) := do
  let _ ← call env
  return ⟨Z.init, writer⟩

def writeChunk (env : Env) (elapsed : ℕ → ℕ) (session : TimedSession H Z) :
    BtrfsSendChunk → Act (TimedSession H Z)
  | .stdoutBytes data _ => do
    let _ ← call env
    let (encoder, bufs) := Z.feed session.encoder data
    let writer ← session.writer.writeBuffers env elapsed bufs
    return ⟨encoder, writer⟩
  | .processExit _ _ => return session

def finish (env : Env) (elapsed : ℕ → ℕ) (session : TimedSession H Z) :
    Act (TimedWriter H) := do
  let _ ← call env
  session.writer.writeBuffers env elapsed (Z.finish session.encoder)

/-- `TimedIterator::next` over the counting map. -/
def next (elapsed : ℕ → ℕ) (session : TimedSession H Z) :
    Option (Except BbkarError BtrfsSendChunk) → TimedSession H Z
  | some (.ok (.stdoutBytes data _)) =>
    let writer := { session.writer with rawCounter := session.writer.rawCounter + data.length }
    ⟨session.encoder, writer.addReadTime elapsed⟩
  | _ => ⟨session.encoder, session.writer.addReadTime elapsed⟩

def processItem (env : Env) (elapsed : ℕ → ℕ) (session : TimedSession H Z)
    (item : Except BbkarError BtrfsSendChunk) : Act (TimedSession H Z) :=
  match item with
  | .error e => throw (.err e)
  | .ok chunk => (session.next elapsed (some item)).writeChunk env elapsed chunk

def processAll (env : Env) (elapsed : ℕ → ℕ) (session : TimedSession H Z)
    (stream : SendStream) : Act (TimedWriter H) := do
  let session ← stream.foldlM (processItem env elapsed) session
  (session.next elapsed none).finish env elapsed

end TimedSession

structure TimedStats extends TransferStats where
  elapsed : ℕ
  readTime : ℕ
  writeTime : ℕ
  deriving DecidableEq, Repr

def timedWriteSubvolumeToDest (H : IncrementalHash) (Z : StreamEncoder) (env : Env)
    (elapsed : ℕ → ℕ) (backend : BackendSpec) (volume snapshot : String) (maxChunkSizeMib : ℕ)
    (stream : SendStream) : Act (List ChunkFilename × TimedStats) := do
  let writer := TimedWriter.new H backend volume snapshot (maxChunkSizeMib * 1024 * 1024)
  let session ← TimedSession.new (Z := Z) env writer
  let writer ← session.processAll env elapsed stream
  let writer ← writer.finish env elapsed
  return (writer.writtenChunks,
    { rawBytes := writer.rawCounter
      compressedBytes := (writer.writtenChunks.map (·.size)).sum
      elapsed := elapsed writer.measured
      readTime := writer.readNanos
      writeTime := writer.writeNanos })

/-! ## Lockstep with the writer without clocks -/

section Lockstep

variable {H : IncrementalHash} {Z : StreamEncoder} {env : Env} {elapsed : ℕ → ℕ}
  {cw : ChunkedWriter H} {tw : TimedWriter H}

theorem subU64_of_le {a b : ℕ} (h : b ≤ a) : subU64 a b = pure (a - b) := if_pos h

/-- The timed writer is the writer, and no counter is below its last reading. -/
structure Timed (cw : ChunkedWriter H) (tw : TimedWriter H) : Prop where
  writer : tw.toChunkedWriter = cw
  raw : tw.rawAtLastRoll ≤ tw.rawCounter
  read : tw.readNanosAtChunkStart ≤ tw.readNanos
  write : tw.writeNanosAtChunkStart ≤ tw.writeNanos

theorem Timed.addWriteTime (h : Timed cw tw) (elapsed : ℕ → ℕ) :
    Timed cw (tw.addWriteTime elapsed) :=
  ⟨h.writer, h.raw, h.read, Nat.le_add_right_of_le h.write⟩

theorem Timed.addReadTime (h : Timed cw tw) (elapsed : ℕ → ℕ) :
    Timed cw (tw.addReadTime elapsed) :=
  ⟨h.writer, h.raw, Nat.le_add_right_of_le h.read, h.write⟩

theorem lockstep_timedFinalize (h : Timed cw tw) :
    Lockstep Eq (fun cw' tw' => Timed cw' tw' ∧ cw'.rawCounter = cw.rawCounter)
      (cw.finalizeCurrent env) (tw.finalizeCurrent env) := by
  obtain ⟨rfl, hraw, hread, hwrite⟩ := h
  unfold ChunkedWriter.finalizeCurrent TimedWriter.finalizeCurrent
  cases tw.currentFile with
  | none => exact lockstep_pure ⟨⟨rfl, hraw, hread, hwrite⟩, rfl⟩
  | some file =>
    refine lockstep_bind (lockstep_self (file.close env)) fun _ _ _ => ?_
    rw [subU64_of_le hraw, subU64_of_le hread, subU64_of_le hwrite]
    simp only [pure_bind]
    exact lockstep_pure ⟨⟨rfl, le_rfl, hread, hwrite⟩, rfl⟩

theorem lockstep_timedRoll (h : Timed cw tw) :
    Lockstep Eq Timed (cw.rollNext env) (tw.rollNext env) := by
  unfold ChunkedWriter.rollNext TimedWriter.rollNext
  refine lockstep_bind (lockstep_timedFinalize h) ?_
  rintro _ tw₁ ⟨⟨rfl, hraw, -, -⟩, -⟩
  split_ifs
  · refine lockstep_bind (lockstep_self _) ?_
    rintro file _ rfl
    exact lockstep_pure ⟨rfl, hraw, le_rfl, le_rfl⟩
  · exact lockstep_throw _

theorem lockstep_timedEnsure (h : Timed cw tw) :
    Lockstep Eq Timed (cw.ensureChunk env) (tw.ensureChunk env) := by
  unfold ChunkedWriter.ensureChunk TimedWriter.ensureChunk
  obtain rfl := h.writer
  split_ifs
  · exact lockstep_timedRoll h
  · exact lockstep_pure h

/-- The same number of bytes is written. -/
def TimedWritten (r : ℕ × ChunkedWriter H) (r' : ℕ × TimedWriter H) : Prop :=
  r'.1 = r.1 ∧ Timed r.2 r'.2

theorem lockstep_timedWrite (h : Timed cw tw) (buf : Bytes) :
    Lockstep Eq TimedWritten (cw.write env buf) (tw.write env elapsed buf) := by
  unfold ChunkedWriter.write TimedWriter.write
  refine lockstep_bind (lockstep_timedEnsure h) ?_
  rintro cw₁ tw₁ h₁
  unfold ChunkedWriter.writeCurrent TimedWriter.writeCurrent
  obtain rfl := h₁.writer
  cases tw₁.currentFile with
  | none => exact lockstep_throw _
  | some file =>
    refine lockstep_bind (lockstep_self (file.write env buf)) ?_
    rintro ⟨written, file⟩ _ rfl
    obtain ⟨-, hraw, hread, hwrite⟩ := h₁.addWriteTime elapsed
    exact lockstep_pure ⟨rfl, rfl, hraw, hread, hwrite⟩

theorem lockstep_timedWriteAll (fuel : ℕ) {cw : ChunkedWriter H} {tw : TimedWriter H}
    (h : Timed cw tw) (buf : Bytes) :
    Lockstep Eq Timed (ChunkedWriter.writeAll env fuel cw buf)
      (TimedWriter.writeAll env elapsed fuel tw buf) := by
  unfold ChunkedWriter.writeAll TimedWriter.writeAll
  refine lockstep_bind (lockstep_timedWrite h buf) ?_
  rintro ⟨written, cw₁⟩ ⟨_, tw₁⟩ ⟨rfl, h₁⟩
  simp only
  split_ifs
  · exact lockstep_pure h₁
  · cases fuel with
    | zero => exact lockstep_throw _
    | succ fuel => exact lockstep_timedWriteAll fuel h₁ _

theorem lockstep_timedWriteBuffers (h : Timed cw tw) (bufs : List Bytes) :
    Lockstep Eq Timed (cw.writeBuffers env bufs) (tw.writeBuffers env elapsed bufs) :=
  lockstep_foldlM bufs (fun buf _ _ _ h => lockstep_timedWriteAll buf.length h buf) h

def TimedSessions (session : CompressSession H Z) (timed : TimedSession H Z) : Prop :=
  timed.encoder = session.encoder ∧ Timed session.writer timed.writer

theorem TimedSessions.next {session : CompressSession H Z} {timed : TimedSession H Z}
    (h : TimedSessions session timed) (elapsed : ℕ → ℕ)
    (item : Except BbkarError BtrfsSendChunk) :
    TimedSessions (session.countRaw item) (timed.next elapsed (some item)) := by
  obtain ⟨henc, hw⟩ := h
  unfold CompressSession.countRaw TimedSession.next
  rcases item with e | ⟨data, offset⟩ | ⟨code, stderr⟩
  · exact ⟨henc, hw.addReadTime elapsed⟩
  · refine ⟨henc, ?_, Nat.le_add_right_of_le hw.raw, Nat.le_add_right_of_le hw.read, hw.write⟩
    rw [← hw.writer]
    rfl
  · exact ⟨henc, hw.addReadTime elapsed⟩

theorem lockstep_timedItem {session : CompressSession H Z} {timed : TimedSession H Z}
    (h : TimedSessions session timed) (item : Except BbkarError BtrfsSendChunk) :
    Lockstep Eq TimedSessions (session.processItem env item)
      (timed.processItem env elapsed item) := by
  unfold CompressSession.processItem TimedSession.processItem
  obtain ⟨henc, hw⟩ := h.next elapsed item
  cases item with
  | error e => exact lockstep_throw _
  | ok chunk =>
    cases chunk with
    | processExit code stderr => exact lockstep_pure ⟨henc, hw⟩
    | stdoutBytes data offset =>
      refine lockstep_bind (lockstep_self (call env)) fun _ _ _ => ?_
      rw [henc]
      refine lockstep_bind (lockstep_timedWriteBuffers hw _) fun _ _ h => ?_
      exact lockstep_pure ⟨rfl, h⟩

/-- For all measured times the results are the same, and no subtraction has panicked. -/
theorem lockstep_timedWriteSubvolumeToDest (backend : BackendSpec) (volume snapshot : String)
    (maxMib : ℕ) (stream : SendStream) :
    Lockstep Eq (fun r r' => r'.1 = r.1 ∧ r'.2.toTransferStats = r.2)
      (writeSubvolumeToDest H Z env backend volume snapshot maxMib stream)
      (timedWriteSubvolumeToDest H Z env elapsed backend volume snapshot maxMib stream) := by
  unfold writeSubvolumeToDest timedWriteSubvolumeToDest
  have hnew : TimedSessions (Z := Z)
      ⟨Z.init, ChunkedWriter.new H backend volume snapshot (maxMib * 1024 * 1024)⟩
      ⟨Z.init, TimedWriter.new H backend volume snapshot (maxMib * 1024 * 1024)⟩ :=
    ⟨rfl, rfl, le_rfl, le_rfl, le_rfl⟩
  refine lockstep_bind (V := TimedSessions)
    (lockstep_bind (lockstep_self (call env)) fun _ _ _ => lockstep_pure hnew) ?_
  intro session timed h
  refine lockstep_bind (V := Timed) (lockstep_bind
    (lockstep_foldlM stream (fun item _ _ _ h => lockstep_timedItem h item) h) ?_) ?_
  · rintro session timed ⟨henc, hw⟩
    refine lockstep_bind (lockstep_self (call env)) fun _ _ _ => ?_
    rw [← henc]
    exact lockstep_timedWriteBuffers (hw.addReadTime elapsed) _
  · rintro cw tw h
    unfold ChunkedWriter.finish TimedWriter.finish
    simp only [bind_assoc, pure_bind]
    refine lockstep_bind (lockstep_timedFinalize h) ?_
    rintro _ tw₁ ⟨⟨rfl, -, -, -⟩, hraw⟩
    refine lockstep_pure ⟨rfl, ?_⟩
    rw [← hraw]
    rfl

end Lockstep

end Bbkar
