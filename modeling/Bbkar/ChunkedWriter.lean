import Bbkar.World

/-!
# Writing a stream to chunk files

Translation of `ChunkedWriter`, `CompressSession` and `write_subvolume_to_dest`. A local
file changes with every write, an object of remote storage appears when its writer is
closed. `part_number` is a `u32` whose increment panics on overflow. Timing and logging
are left out, and so is the rewording of storage errors on their way up.
-/
namespace Bbkar
open Codec Effects Function

inductive ChunkOutput where
  | localFile (key : String)
  | remote (key : String) (buffered : Bytes)

/-- The bytes of a part file, none when there is no such file. -/
def partBytes (store : Store) (key : String) : Bytes :=
  match store key with
  | some (.part bytes) => bytes
  | _ => []

namespace ChunkOutput

def close (env : Env) : ChunkOutput → Act Unit
  | localFile _ => do
    let _ ← call env
  | remote key buffered => do
    let _ ← call env
    putObject (.writePart key) key (some (.part buffered))

/-- How many bytes of a buffer the output takes: some, unless there are none. -/
def accepted (env : Env) (n : ℕ) (buf : Bytes) : ℕ := min buf.length (max 1 (env.accept n))

def write (env : Env) (buf : Bytes) : ChunkOutput → Act (ℕ × ChunkOutput)
  | localFile key => do
    let n ← call env
    let written := accepted env n buf
    let w ← get
    putObject (.writePart key) key (some (.part (partBytes w.store key ++ buf.take written)))
    return (written, localFile key)
  | remote key buffered => do
    let n ← call env
    let written := accepted env n buf
    return (written, remote key (buffered ++ buf.take written))

end ChunkOutput

/-- Lower-case hexadecimal, two digits for each byte. -/
def hexOf (bytes : Bytes) : String :=
  String.ofList (bytes.flatMap fun b =>
    [Nat.digitChar (b.toNat / 16), Nat.digitChar (b.toNat % 16)])

structure ChunkedWriter (H : IncrementalHash) where
  backend : BackendSpec
  volume : String
  snapshot : String
  maxChunkBytes : ℕ
  currentFile : Option ChunkOutput
  currentFilename : String
  currentSize : ℕ
  partNumber : ℕ
  writtenChunks : List ChunkFilename
  currentHasher : H.State
  rawCounter : ℕ
  rawAtLastRoll : ℕ

namespace ChunkedWriter

variable {H : IncrementalHash}

def new (H : IncrementalHash) (backend : BackendSpec) (volume snapshot : String)
    (maxChunkBytes : ℕ) : ChunkedWriter H :=
  { backend := backend
    volume := volume
    snapshot := snapshot
    maxChunkBytes := maxChunkBytes
    currentFile := none
    currentFilename := ""
    currentSize := 0
    partNumber := 0
    writtenChunks := []
    currentHasher := H.init
    rawCounter := 0
    rawAtLastRoll := 0 }

/-- A local file is created empty, or emptied; a remote writer starts with nothing. The file
at `partPath` goes by the key under which it is read. -/
def openNextChunk (env : Env) (cw : ChunkedWriter H) (filename : String) :
    Act ChunkOutput := do
  let key := pathInSnapshot cw.volume cw.snapshot filename
  let _ ← call env
  match cw.backend with
  | .localDir =>
    putObject (.writePart key) key (some (.part []))
    return .localFile key
  | .objectStorage => return .remote key []

/-- The record of the current chunk, with its size cast to `u32`. -/
def currentChunk (cw : ChunkedWriter H) : ChunkFilename :=
  { filename := cw.currentFilename
    size := cw.currentSize % 2 ^ 32
    sha256sum := some (hexOf (H.finalize cw.currentHasher))
    compression := some "zstd"
    rawSize := some (cw.rawCounter - cw.rawAtLastRoll) }

def finalizeCurrent (env : Env) (cw : ChunkedWriter H) : Act (ChunkedWriter H) :=
  match cw.currentFile with
  | none => return cw
  | some file => do
    file.close env
    return { cw with
      currentHasher := H.init
      rawAtLastRoll := cw.rawCounter
      writtenChunks := cw.writtenChunks ++ [cw.currentChunk]
      currentFile := none }

def rollNext (env : Env) (cw : ChunkedWriter H) : Act (ChunkedWriter H) := do
  let cw ← cw.finalizeCurrent env
  if cw.partNumber + 1 < 2 ^ 32 then
    let filename := partFilename (cw.partNumber + 1)
    let file ← cw.openNextChunk env filename
    return { cw with
      partNumber := cw.partNumber + 1
      currentFile := some file
      currentFilename := filename
      currentSize := 0
      currentHasher := H.init }
  else throw .panic

/-- The check of `write` for a missing or full chunk. -/
def ensureChunk (env : Env) (cw : ChunkedWriter H) : Act (ChunkedWriter H) :=
  if cw.currentFile.isNone || decide (cw.currentSize ≥ cw.maxChunkBytes) then cw.rollNext env
  else return cw

/-- The rest of `write`. -/
def writeCurrent (env : Env) (cw : ChunkedWriter H) (buf : Bytes) :
    Act (ℕ × ChunkedWriter H) :=
  match cw.currentFile with
  | none => throw .panic
  | some file => do
    let (written, file) ← file.write env buf
    return (written, { cw with
      currentFile := some file
      currentHasher := H.update cw.currentHasher (buf.take written)
      currentSize := cw.currentSize + written })

def write (env : Env) (cw : ChunkedWriter H) (buf : Bytes) : Act (ℕ × ChunkedWriter H) := do
  let cw ← cw.ensureChunk env
  cw.writeCurrent env buf

/-- A caller in the manner of `write_all`, which writes an empty buffer once. The fuel is
the length of the buffer: each call takes at least one byte of what is left. -/
def writeAll (env : Env) : ℕ → ChunkedWriter H → Bytes → Act (ChunkedWriter H)
  | fuel, cw, buf => do
    let (written, cw) ← cw.write env buf
    if buf.drop written = [] then return cw
    else
      match fuel with
      | 0 => throw .diverges
      | fuel + 1 => writeAll env fuel cw (buf.drop written)

def writeBuffers (env : Env) (cw : ChunkedWriter H) (bufs : List Bytes) :
    Act (ChunkedWriter H) :=
  bufs.foldlM (fun cw buf => writeAll env buf.length cw buf) cw

def finish (env : Env) (cw : ChunkedWriter H) : Act (List ChunkFilename) := do
  let cw ← cw.finalizeCurrent env
  return cw.writtenChunks

end ChunkedWriter

/-! ## Compression -/

structure CompressSession (H : IncrementalHash) (Z : StreamEncoder) where
  encoder : Z.State
  writer : ChunkedWriter H

namespace CompressSession

variable {H : IncrementalHash} {Z : StreamEncoder}

def new (env : Env) (writer : ChunkedWriter H) : Act (CompressSession H Z) := do
  let _ ← call env
  return ⟨Z.init, writer⟩

/-- Only `stdoutBytes` is written; `processExit` is ignored. -/
def writeChunk (env : Env) (session : CompressSession H Z) :
    BtrfsSendChunk → Act (CompressSession H Z)
  | .stdoutBytes data _ => do
    let _ ← call env
    let (encoder, bufs) := Z.feed session.encoder data
    let writer ← session.writer.writeBuffers env bufs
    return ⟨encoder, writer⟩
  | .processExit _ _ => return session

def finish (env : Env) (session : CompressSession H Z) : Act (ChunkedWriter H) := do
  let _ ← call env
  session.writer.writeBuffers env (Z.finish session.encoder)

/-- The counting map in front of the session: bytes count as they are pulled. -/
def countRaw (session : CompressSession H Z) :
    Except BbkarError BtrfsSendChunk → CompressSession H Z
  | .ok (.stdoutBytes data _) =>
    { session with
      writer := { session.writer with
        rawCounter := session.writer.rawCounter + data.length } }
  | _ => session

def processItem (env : Env) (session : CompressSession H Z)
    (item : Except BbkarError BtrfsSendChunk) : Act (CompressSession H Z) :=
  match item with
  | .error e => throw (.err e)
  | .ok chunk => (session.countRaw item).writeChunk env chunk

def processAll (env : Env) (session : CompressSession H Z) (stream : SendStream) :
    Act (ChunkedWriter H) := do
  let session ← stream.foldlM (processItem env) session
  session.finish env

end CompressSession

structure TransferStats where
  rawBytes : ℕ
  compressedBytes : ℕ
  deriving DecidableEq, Repr

/-- What a failed write leaves behind: any contents of any part files of the snapshot. -/
def applyLeftover (env : Env) (volume snapshot : String) (w : World) : World :=
  (env.leftover w.calls).foldl
    (fun w file =>
      let key := partKey volume snapshot file.1
      w.log (.writePart key) (update w.store key (file.2.map .part)))
    w

def writeSubvolumeToDest (H : IncrementalHash) (Z : StreamEncoder) (env : Env)
    (backend : BackendSpec) (volume snapshot : String) (maxChunkSizeMib : ℕ)
    (stream : SendStream) : Act (List ChunkFilename × TransferStats) := do
  let writer := ChunkedWriter.new H backend volume snapshot (maxChunkSizeMib * 1024 * 1024)
  let session ← CompressSession.new (Z := Z) env writer
  let writer ← session.processAll env stream
  let rawBytes := writer.rawCounter
  let chunkFiles ← writer.finish env
  return (chunkFiles, ⟨rawBytes, (chunkFiles.map (·.size)).sum⟩)

/-- The executor's `write_subvolume`, recorded where it starts. -/
def writeSubvolume (H : IncrementalHash) (Z : StreamEncoder) (env : Env)
    (backend : BackendSpec) (volume snapshot : String) (maxChunkSizeMib : ℕ)
    (stream : SendStream) : Act (List ChunkFilename × TransferStats) := do
  modify fun w => w.log (.writeSubvolume volume snapshot stream) w.store
  afterError (writeSubvolumeToDest H Z env backend volume snapshot maxChunkSizeMib stream)
    (applyLeftover env volume snapshot)

end Bbkar
