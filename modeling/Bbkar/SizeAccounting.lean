import Bbkar.RunSpec
import Bbkar.PartFileSizes
import Bbkar.TimedWriter

/-!
# Accounting for sizes

The raw bytes are counted where the compressor is fed, and a part gets the count since the
part before it was closed. These differences add up to the whole count, since the last part
is closed after everything has been counted.
-/
namespace Bbkar
open Codec Effects

/-- The sum of the raw sizes, when all of them are recorded. -/
def rawTotal (chunks : List ChunkFilename) : Option ℕ :=
  (chunks.map (·.rawSize)).foldlM (fun acc size => size.map (acc + ·)) 0

theorem rawTotal_concat {chunks : List ChunkFilename} {c : ChunkFilename} {total size : ℕ}
    (h : rawTotal chunks = some total) (hc : c.rawSize = some size) :
    rawTotal (chunks ++ [c]) = some (total + size) := by
  unfold rawTotal at h ⊢
  rw [List.map_append, List.foldlM_append, h]
  simp [hc]

/-- The raw sizes of the closed parts add up to the count when the last of them was closed. -/
structure RawKept {H : IncrementalHash} (cw : ChunkedWriter H) (counted : ℕ) : Prop where
  counter : cw.rawCounter = counted
  closed : rawTotal cw.writtenChunks = some cw.rawAtLastRoll
  le : cw.rawAtLastRoll ≤ counted
  opened : cw.currentFile = none → cw.writtenChunks = []

section Raw

variable {H : IncrementalHash} {Z : StreamEncoder} {env : Env} {w : World} {counted : ℕ}

/-- Closing accounts for everything that has been counted, if any part is open. -/
theorem RawKept.finalizeCurrent_spec {cw : ChunkedWriter H} (h : RawKept cw counted) :
    wp (cw.finalizeCurrent env)
      (fun cw' _ => cw'.rawCounter = counted ∧ rawTotal cw'.writtenChunks = some cw'.rawAtLastRoll ∧
        (cw'.writtenChunks = [] ∧ cw'.rawAtLastRoll ≤ counted ∨ cw'.rawAtLastRoll = counted))
      (fun _ _ => True) w := by
  obtain ⟨rfl, hclosed, hle, hopened⟩ := h
  unfold ChunkedWriter.finalizeCurrent
  cases hfile : cw.currentFile with
  | none => exact ⟨rfl, hclosed, Or.inl ⟨hopened hfile, hle⟩⟩
  | some file =>
    simp only [wp_bind, wp_pure]
    refine wp_mono_ok wp_true fun _ _ _ => ?_
    refine ⟨trivial, ?_, Or.inr trivial⟩
    rw [rawTotal_concat hclosed rfl, Nat.add_sub_cancel' hle]

theorem RawKept.rollNext_spec {cw : ChunkedWriter H} (h : RawKept cw counted) :
    wp (cw.rollNext env) (fun cw' _ => RawKept cw' counted) (fun _ _ => True) w := by
  unfold ChunkedWriter.rollNext
  rw [wp_bind]
  refine wp_mono_ok h.finalizeCurrent_spec ?_
  rintro cw₁ w₁ ⟨hcounter, hclosed, hraw⟩
  have hle : cw₁.rawAtLastRoll ≤ counted := hraw.elim (·.2) (·.le)
  split_ifs
  · rw [wp_bind]
    refine wp_mono_ok wp_true fun _ _ _ => ?_
    exact ⟨hcounter, hclosed, hle, by simp⟩
  · trivial

theorem RawKept.write_spec {cw : ChunkedWriter H} (h : RawKept cw counted) (buf : Bytes) :
    wp (cw.write env buf) (fun r _ => RawKept r.2 counted) (fun _ _ => True) w := by
  have hensure : wp (cw.ensureChunk env) (fun cw' _ => RawKept cw' counted)
      (fun _ _ => True) w := by
    unfold ChunkedWriter.ensureChunk
    split_ifs
    · exact h.rollNext_spec
    · exact h
  unfold ChunkedWriter.write
  rw [wp_bind]
  refine wp_mono_ok hensure ?_
  intro cw₁ w₁ h₁
  unfold ChunkedWriter.writeCurrent
  cases cw₁.currentFile with
  | none => trivial
  | some file =>
    simp only [wp_bind, wp_pure]
    exact wp_mono_ok wp_true fun _ _ _ => ⟨h₁.counter, h₁.closed, h₁.le, by simp⟩

theorem RawKept.writeAll_spec (fuel : ℕ) {w : World} {cw : ChunkedWriter H}
    (h : RawKept cw counted) (buf : Bytes) :
    wp (ChunkedWriter.writeAll env fuel cw buf) (fun cw' _ => RawKept cw' counted)
      (fun _ _ => True) w := by
  unfold ChunkedWriter.writeAll
  rw [wp_bind]
  refine wp_mono_ok (h.write_spec buf) ?_
  rintro ⟨written, cw₁⟩ w₁ h₁
  simp only
  split_ifs
  · exact h₁
  · cases fuel with
    | zero => trivial
    | succ fuel => exact h₁.writeAll_spec fuel _

theorem RawKept.writeBuffers_spec {cw : ChunkedWriter H} (h : RawKept cw counted)
    (bufs : List Bytes) :
    wp (cw.writeBuffers env bufs) (fun cw' _ => RawKept cw' counted) (fun _ _ => True) w :=
  wp_foldlM (I := fun _ cw' _ => RawKept cw' counted) bufs cw
    (fun buf _ _ _ h => h.writeAll_spec buf.length buf) h

/-- The bytes of the pieces of a stream. -/
def rawBytesOf (stream : SendStream) : ℕ := (stdoutPieces stream).flatten.length

/-- What an item holds is counted before any of it is written. -/
theorem RawKept.processItem_spec {session : CompressSession H Z}
    (h : RawKept session.writer counted) (item : Except BbkarError BtrfsSendChunk)
    (rest : SendStream) :
    wp (session.processItem env item)
      (fun session' _ => ∃ counted', RawKept session'.writer counted' ∧
        counted' + rawBytesOf rest = counted + rawBytesOf (item :: rest))
      (fun _ _ => True) w := by
  unfold CompressSession.processItem
  rcases item with e | ⟨data, offset⟩ | ⟨code, stderr⟩
  · trivial
  · have hcounted : RawKept (session.countRaw (.ok (.stdoutBytes data offset))).writer
        (counted + data.length) :=
      ⟨by rw [← h.counter]; rfl, h.closed, Nat.le_add_right_of_le h.le, h.opened⟩
    simp only [CompressSession.writeChunk, wp_bind, wp_call, wp_pure]
    refine ⟨fun _ => ?_, fun _ _ => trivial⟩
    refine wp_mono_ok (hcounted.writeBuffers_spec _) fun cw' _ h' => ⟨_, h', ?_⟩
    simp [rawBytesOf, stdoutPieces, Nat.add_assoc]
  · exact ⟨counted, h, rfl⟩

/-- A complete write records every raw byte, unless there are no parts. -/
theorem writeSubvolumeToDest_raw (backend : BackendSpec) (v s : String) (maxMib : ℕ)
    (stream : SendStream) :
    wp (writeSubvolumeToDest H Z env backend v s maxMib stream)
      (fun out _ => (out.1 = [] ∨ rawTotal out.1 = some (rawBytesOf stream)) ∧
        out.2 = ⟨rawBytesOf stream, (out.1.map (·.size)).sum⟩)
      (fun _ _ => True) w := by
  unfold writeSubvolumeToDest CompressSession.new CompressSession.processAll
  simp only [wp_bind, wp_call, wp_pure]
  refine ⟨fun _ => ?_, fun _ _ => trivial⟩
  -- what has been counted, with what is still to come, is the whole stream
  let I : SendStream → CompressSession H Z → World → Prop := fun rest session _ =>
    ∃ counted, RawKept session.writer counted ∧ counted + rawBytesOf rest = rawBytesOf stream
  have hnew : RawKept (ChunkedWriter.new H backend v s (maxMib * 1024 * 1024)) 0 :=
    ⟨rfl, rfl, le_rfl, fun _ => rfl⟩
  refine wp_mono_ok (wp_foldlM (I := I) (f := CompressSession.processItem env) stream _ ?_
    ⟨0, hnew, Nat.zero_add _⟩) ?_
  · rintro item rest session w₁ ⟨counted, h, htotal⟩
    refine wp_mono_ok (h.processItem_spec item rest) ?_
    rintro session' w₂ ⟨counted', h', htotal'⟩
    exact ⟨counted', h', htotal'.trans htotal⟩
  · rintro session w₁ ⟨counted, h, htotal⟩
    obtain rfl : counted = rawBytesOf stream := htotal
    simp only [CompressSession.finish, wp_bind, wp_call]
    refine ⟨fun _ => ?_, fun _ _ => trivial⟩
    refine wp_mono_ok (h.writeBuffers_spec _) ?_
    intro cw w₂ h₂
    simp only [ChunkedWriter.finish, wp_bind, wp_pure]
    refine wp_mono_ok h₂.finalizeCurrent_spec ?_
    rintro cw' w₃ ⟨-, hclosed, hraw⟩
    rw [h₂.counter]
    exact ⟨hraw.imp (·.1) fun hlast => by rw [hclosed, hlast], rfl⟩

end Raw

/-! ## The accounts of a complete write -/

section Accounts

variable {H : IncrementalHash} {Z : StreamEncoder} {env : Env} {v s : String} {w w' : World}
  {mib : ℕ} {stream : SendStream} {chunks : List ChunkFilename} {stats : TransferStats}

/-- The recorded sizes are those of the part files, which hold the compressed stream. -/
structure SizesExact (Z : StreamEncoder) (store : Store) (v s : String) (stream : SendStream)
    (chunks : List ChunkFilename) : Prop where
  each : ∀ c ∈ chunks, c.size = partFileSize store v s c
  sum : (chunks.map (·.size)).sum = (Z.encode (stdoutPieces stream)).flatten.length

/-- A part is shorter than the limit and a buffer together, which is in the range of `u32`. -/
theorem StoredStream.sizesExact {store : Store} (hmib : mib ≤ 2048)
    (hbufs : ∀ b ∈ Z.encode (stdoutPieces stream), b.length ≤ 2 ^ 31)
    (h : StoredStream H Z (mib * 1024 * 1024) v s store stream chunks) :
    SizesExact Z store v s stream chunks := by
  obtain ⟨parts, rfl, hstored, hencodes⟩ := h
  have hbound : bufferBound Z stream ≤ 2 ^ 31 :=
    Finset.sup_le fun b hb => hbufs b (List.mem_toFinset.mp hb)
  have hsize : ∀ p ∈ parts, p.1.size = p.2.length := by
    intro p hp
    have hshort := hencodes.short p hp
    rw [(hstored.describes p hp).size, Nat.mod_eq_of_lt]
    omega
  have hsizes : (parts.map Prod.fst).map (·.size) = parts.map (·.2.length) := by
    rw [List.map_map]
    exact List.map_congr_left hsize
  refine ⟨fun c hc => ?_, ?_⟩
  · obtain ⟨p, hp, rfl⟩ := List.mem_map.mp hc
    have hfiles := List.map_inj_left.mp (hstored.partFileSizes.trans hsizes.symm) p.1
      (List.mem_map_of_mem hp)
    exact hfiles.symm
  · rw [hsizes, ← hencodes.bytes, List.length_flatten, List.map_map]
    rfl

theorem StoredStream.ne_nil {store : Store}
    (hemits : (Z.encode (stdoutPieces stream)).flatten ≠ [])
    (h : StoredStream H Z (mib * 1024 * 1024) v s store stream chunks) : chunks ≠ [] := by
  obtain ⟨parts, rfl, -, hencodes⟩ := h
  intro hnil
  obtain rfl := List.map_eq_nil_iff.mp hnil
  exact hemits hencodes.bytes.symm

/-- For every successful write: recorded sizes are exact and add up, the checked subtractions
of the timed writer do not change the result, and the raw bytes are all recorded. -/
theorem sizeAccounting_exact (backend : BackendSpec) (hmib : mib ≤ 2048)
    (hbufs : ∀ b ∈ Z.encode (stdoutPieces stream), b.length ≤ 2 ^ 31)
    (hemits : (Z.encode (stdoutPieces stream)).flatten ≠ [])
    (hrun : outcome (writeSubvolumeToDest H Z env backend v s mib stream) w =
      (.ok (chunks, stats), w')) :
    SizesExact Z w'.store v s stream chunks ∧
    (∀ elapsed, ∃ timedStats,
      outcome (timedWriteSubvolumeToDest H Z env elapsed backend v s mib stream) w =
        (.ok (chunks, timedStats), w') ∧ timedStats.toTransferStats = stats) ∧
    (∀ archive : VolumeArchive, archive.chunks = chunks →
      archive.totalRawSize = some (rawBytesOf stream) ∧
      archive.totalSize = stats.compressedBytes) ∧
    stats.rawBytes = rawBytesOf stream ∧
    stats.compressedBytes = (Z.encode (stdoutPieces stream)).flatten.length := by
  obtain ⟨-, -, hstored⟩ := wp_ok (writeSubvolumeToDest_spec backend mib stream (.refl w)) hrun
  obtain ⟨hraw, hout⟩ := wp_ok (writeSubvolumeToDest_raw backend v s mib stream) hrun
  simp only at hstored hraw hout
  subst hout
  have hsizes := hstored.sizesExact hmib hbufs
  have htotal := hraw.resolve_left (hstored.ne_nil hemits)
  refine ⟨hsizes, fun elapsed => ?_, ?_, rfl, hsizes.sum⟩
  · rcases (lockstep_timedWriteSubvolumeToDest backend v s mib stream).cases rfl with
      ⟨r, ⟨chunks', timed⟩, s₁, _, hr, htimed, ⟨rfl, hstats⟩, rfl⟩ | ⟨e, s₁, _, hr, -, -⟩
    · obtain ⟨hr', rfl⟩ := Prod.mk.inj (hr.symm.trans hrun)
      obtain rfl := Except.ok.inj hr'
      exact ⟨timed, htimed, hstats⟩
    · cases hr.symm.trans hrun
  · rintro archive rfl
    exact ⟨htotal, rfl⟩

/-- Pieces of two bytes and of one. -/
def threeBytes : SendStream :=
  [.ok (.stdoutBytes [1, 2] 0), .ok (.stdoutBytes [3] 2), .ok (.processExit 0 "")]

/-- With no room in a part every write rolls. -/
def threeParts : List ChunkFilename :=
  [⟨partFilename 1, 1, some "01", some "zstd", some 2⟩,
    ⟨partFilename 2, 1, some "02", some "zstd", some 1⟩,
    ⟨partFilename 3, 1, some "03", some "zstd", some 0⟩]

theorem sizeAccounting_exact_three :
    ∃ w', outcome (writeSubvolumeToDest .keepAll StreamCodec.identity.toStreamEncoder Env.calm
        .objectStorage "vol" "20250101" 0 threeBytes) (World.start fun _ => none) =
        (.ok (threeParts, ⟨3, 3⟩), w') ∧
      SizesExact StreamCodec.identity.toStreamEncoder w'.store "vol" "20250101" threeBytes
        threeParts ∧
      (∀ elapsed, ∃ timedStats,
        outcome (timedWriteSubvolumeToDest .keepAll StreamCodec.identity.toStreamEncoder Env.calm
          elapsed .objectStorage "vol" "20250101" 0 threeBytes) (World.start fun _ => none) =
          (.ok (threeParts, timedStats), w') ∧ timedStats.toTransferStats = ⟨3, 3⟩) ∧
      (∀ archive : VolumeArchive, archive.chunks = threeParts →
        archive.totalRawSize = some (rawBytesOf threeBytes) ∧ archive.totalSize = 3) ∧
      3 = rawBytesOf threeBytes ∧
      3 = (StreamCodec.identity.encode (stdoutPieces threeBytes)).flatten.length := by
  have hreturned : (outcome (writeSubvolumeToDest .keepAll StreamCodec.identity.toStreamEncoder
      Env.calm .objectStorage "vol" "20250101" 0 threeBytes)
      (World.start fun _ => none)).1.toOption = some (threeParts, ⟨3, 3⟩) := by
    decide +kernel
  rcases hrun : outcome (writeSubvolumeToDest .keepAll StreamCodec.identity.toStreamEncoder
    Env.calm .objectStorage "vol" "20250101" 0 threeBytes) (World.start fun _ => none) with
    ⟨e | out, w'⟩
  · rw [hrun] at hreturned
    cases hreturned
  · rw [hrun] at hreturned
    obtain rfl := Option.some.inj hreturned
    exact ⟨w', rfl, sizeAccounting_exact .objectStorage (Nat.zero_le _) (by decide) (by decide)
      hrun⟩

end Accounts

end Bbkar
