import Bbkar.ChunkParts

/-!
# The sizes of the part files

The part files are boxes that are filled by the calls of `write`. How many bytes of its buffer
a call takes is the answer of the output. A call whose bytes cross a multiple of the limit
makes a file that is longer than the limit.
-/
namespace Bbkar
open Codec Effects Filling Function

variable {H : IncrementalHash}

/-! ## Calls of `write` -/

namespace ChunkedWriter

/-- Calls of `write`, one after the other, with what each of them took of its buffer. -/
def writeEach (env : Env) : ChunkedWriter H → List Bytes → Act (List ℕ × ChunkedWriter H)
  | cw, [] => return ([], cw)
  | cw, buf :: bufs => do
    let (written, cw) ← cw.write env buf
    let (taken, cw) ← writeEach env cw bufs
    return (written :: taken, cw)

def writeParts (env : Env) (cw : ChunkedWriter H) (bufs : List Bytes) :
    Act (List ℕ × List ChunkFilename) := do
  let (taken, cw) ← cw.writeEach env bufs
  let chunks ← cw.finish env
  return (taken, chunks)

end ChunkedWriter

def partFileSize (store : Store) (volume snapshot : String) (c : ChunkFilename) : ℕ :=
  (partBytes store (pathInSnapshot volume snapshot c.filename)).length

section Sizes

variable {env : Env} {v s : String} {limit B : ℕ} {w₀ w : World}

theorem Stored.partFileSizes {store : Store} {parts : Parts} (h : Stored H store v s parts) :
    (parts.map Prod.fst).map (partFileSize store v s) = parts.map (·.2.length) := by
  rw [List.map_map]
  refine List.map_congr_left fun p hp => ?_
  have hfile : store (pathInSnapshot v s p.1.filename) = some (.part p.2) := h.files p hp
  simp [partFileSize, partBytes, hfile]

/-- The calls fill the boxes. -/
theorem WriterAt.writeEach_spec {bufs : List Bytes} (hbufs : ∀ b ∈ bufs, b.length ≤ B)
    {w : World} {cw : ChunkedWriter H} {parts : Parts} {cur : Option Bytes}
    (h : WriterAt v s limit B w.store cw parts cur) (hf : OnlyParts (PartsOf v s) w₀ w) :
    wp (cw.writeEach env bufs)
      (fun r w' => OnlyParts (PartsOf v s) w₀ w' ∧ ∃ parts' cur',
        WriterAt v s limit B w'.store r.2 parts' cur' ∧
          partSizes parts' cur' = (partSizes parts cur).fill limit r.1)
      (fun _ w' => OnlyParts (PartsOf v s) w₀ w') w := by
  induction bufs generalizing w cw parts cur with
  | nil => exact ⟨hf, parts, cur, h, rfl⟩
  | cons buf bufs ih =>
    obtain ⟨hbuf, hbufs⟩ := List.forall_mem_cons.mp hbufs
    simp only [ChunkedWriter.writeEach, wp_bind]
    refine wp_mono_ok (h.write_spec hf hbuf) ?_
    rintro ⟨written, cw₁⟩ w₁ ⟨-, -, hf₁, parts₁, cur₁, h₁, -, hsizes₁⟩
    refine wp_mono_ok (ih hbufs h₁ hf₁) ?_
    rintro ⟨taken, cw₂⟩ w₂ ⟨hf₂, parts₂, cur₂, h₂, hsizes₂⟩
    refine ⟨hf₂, parts₂, cur₂, h₂, ?_⟩
    rw [hsizes₂, hsizes₁]
    rfl

theorem writeParts_sizes (backend : BackendSpec) (bufs : List Bytes) :
    wp ((ChunkedWriter.new H backend v s limit).writeParts env bufs)
      (fun r w' => r.2.map (partFileSize w'.store v s) =
        (Boxes.fill limit ⟨[], none⟩ r.1).all)
      (fun _ _ => True) w := by
  simp only [ChunkedWriter.writeParts, wp_bind, wp_pure]
  have hbufs : ∀ b ∈ bufs, b.length ≤ bufs.toFinset.sup List.length :=
    fun b hb => Finset.le_sup (f := List.length) (List.mem_toFinset.mpr hb)
  have hnew := writerAt_new H backend v s limit (bufs.toFinset.sup List.length) w.store
  refine wp_mono (hnew.writeEach_spec hbufs (.refl w)) ?_ fun _ _ _ => trivial
  rintro ⟨taken, cw⟩ w₁ ⟨hf₁, parts, cur, hat, hsizes⟩
  refine wp_mono (hat.finish_spec hf₁) ?_ fun _ _ _ => trivial
  rintro chunks w₂ ⟨-, parts', rfl, hstored, -, -, hlengths⟩
  rw [hstored.partFileSizes, hlengths, hsizes]
  rfl

end Sizes

/-! ## Outputs that take whole buffers -/

/-- The output takes each of the buffers as a whole, whenever it is asked. -/
def TakesAll (env : Env) (bufs : List Bytes) : Prop :=
  ∀ b ∈ bufs, ∀ n, ChunkOutput.accepted env n b = b.length

section TakesAll

variable {env : Env} {w : World} {cw : ChunkedWriter H}

theorem close_faulty (file : ChunkOutput) :
    wp (file.close env) (fun _ _ => True) (fun _ _ => env.Faulty) w := by
  cases file with
  | localFile key =>
    simp only [ChunkOutput.close, wp_bind, wp_call, wp_pure]
    exact ⟨fun _ => trivial, fun h hfault => ⟨_, h, hfault⟩⟩
  | remote key buffered =>
    simp only [ChunkOutput.close, wp_bind, wp_call, wp_putObject]
    exact ⟨fun _ => trivial, fun h hfault => ⟨_, h, hfault⟩⟩

theorem finalizeCurrent_faulty :
    wp (cw.finalizeCurrent env) (fun cw' _ => cw'.partNumber = cw.partNumber)
      (fun _ _ => env.Faulty) w := by
  unfold ChunkedWriter.finalizeCurrent
  cases cw.currentFile with
  | none => rfl
  | some file =>
    simp only [wp_bind, wp_pure]
    exact close_faulty file

theorem openNextChunk_faulty (filename : String) :
    wp (cw.openNextChunk env filename) (fun _ _ => True) (fun _ _ => env.Faulty) w := by
  unfold ChunkedWriter.openNextChunk
  simp only [wp_bind, wp_call]
  refine ⟨fun _ => ?_, fun h hfault => ⟨_, h, hfault⟩⟩
  cases cw.backend with
  | localDir => simp only [wp_bind, wp_putObject, wp_pure]
  | objectStorage => trivial

/-- Rolling fails by a call that fails, or for lack of numbers. -/
theorem rollNext_faulty :
    wp (cw.rollNext env)
      (fun cw' _ => cw'.partNumber = cw.partNumber + 1 ∧ cw'.currentFile.isSome = true)
      (fun _ _ => env.Faulty ∨ 2 ^ 32 ≤ cw.partNumber + 1) w := by
  unfold ChunkedWriter.rollNext
  rw [wp_bind]
  refine wp_mono finalizeCurrent_faulty ?_ fun _ _ => Or.inl
  intro cw₁ w₁ hnumber
  rw [hnumber]
  split_ifs with hlt
  · rw [wp_bind]
    exact wp_mono (openNextChunk_faulty _) (fun _ _ _ => ⟨rfl, rfl⟩) fun _ _ => Or.inl
  · exact Or.inr (not_lt.mp hlt)

theorem ensureChunk_faulty :
    wp (cw.ensureChunk env)
      (fun cw' _ => cw'.partNumber ≤ cw.partNumber + 1 ∧ cw'.currentFile.isSome = true)
      (fun _ _ => env.Faulty ∨ 2 ^ 32 ≤ cw.partNumber + 1) w := by
  unfold ChunkedWriter.ensureChunk
  split_ifs with hroll
  · exact wp_mono_ok rollNext_faulty fun _ _ h => ⟨h.1.le, h.2⟩
  · simp only [Bool.or_eq_true, not_or, Bool.not_eq_true, Option.isNone_eq_false_iff] at hroll
    exact ⟨Nat.le_succ _, hroll.1⟩

theorem outputWrite_takesAll {buf : Bytes}
    (htakes : ∀ n, ChunkOutput.accepted env n buf = buf.length) (file : ChunkOutput) :
    wp (file.write env buf) (fun r _ => r.1 = buf.length) (fun _ _ => env.Faulty) w := by
  cases file with
  | localFile key =>
    simp only [ChunkOutput.write, wp_bind, wp_call, wp_get, wp_putObject, wp_pure]
    exact ⟨fun _ => htakes _, fun h hfault => ⟨_, h, hfault⟩⟩
  | remote key buffered =>
    simp only [ChunkOutput.write, wp_bind, wp_call, wp_pure]
    exact ⟨fun _ => htakes _, fun h hfault => ⟨_, h, hfault⟩⟩

theorem write_takesAll {buf : Bytes}
    (htakes : ∀ n, ChunkOutput.accepted env n buf = buf.length) :
    wp (cw.write env buf)
      (fun r _ => r.1 = buf.length ∧ r.2.partNumber ≤ cw.partNumber + 1)
      (fun _ _ => env.Faulty ∨ 2 ^ 32 ≤ cw.partNumber + 1) w := by
  unfold ChunkedWriter.write
  rw [wp_bind]
  refine wp_mono_ok ensureChunk_faulty ?_
  rintro cw₁ w₁ ⟨hnumber, hfile⟩
  obtain ⟨file, hfile⟩ := Option.isSome_iff_exists.mp hfile
  unfold ChunkedWriter.writeCurrent
  rw [hfile]
  simp only [wp_bind, wp_pure]
  exact wp_mono (outputWrite_takesAll htakes file) (fun _ _ h => ⟨h, hnumber⟩) fun _ _ => Or.inl

/-- The calls take whole buffers. They fail only as rolling does. -/
theorem writeEach_takesAll {bufs : List Bytes} (htakes : TakesAll env bufs) :
    wp (cw.writeEach env bufs) (fun r _ => r.1 = bufs.map List.length)
      (fun _ _ => env.Faulty ∨ 2 ^ 32 ≤ cw.partNumber + bufs.length) w := by
  induction bufs generalizing w cw with
  | nil => rfl
  | cons buf bufs ih =>
    obtain ⟨hbuf, hbufs⟩ := List.forall_mem_cons.mp htakes
    simp only [ChunkedWriter.writeEach, wp_bind, wp_pure, List.length_cons]
    refine wp_mono (write_takesAll hbuf) ?_ fun _ _ h => h.imp_right (by omega)
    rintro ⟨written, cw₁⟩ w₁ ⟨hwritten, hnumber⟩
    simp only at hwritten hnumber
    refine wp_mono (ih hbufs) ?_ fun _ _ h => h.imp_right fun hlt => ?_
    · rintro ⟨taken, cw₂⟩ w₂ htaken
      simp only at htaken
      rw [hwritten, htaken, List.map_cons]
    · simp only at hlt
      omega

theorem writeParts_takesAll (cw : ChunkedWriter H) {bufs : List Bytes}
    (htakes : TakesAll env bufs) :
    wp (cw.writeParts env bufs) (fun r _ => r.1 = bufs.map List.length)
      (fun _ _ => env.Faulty ∨ 2 ^ 32 ≤ cw.partNumber + bufs.length) w := by
  simp only [ChunkedWriter.writeParts, wp_bind, wp_pure]
  refine wp_mono_ok (writeEach_takesAll htakes) ?_
  rintro ⟨taken, cw₁⟩ w₁ htaken
  unfold ChunkedWriter.finish
  simp only [wp_bind, wp_pure]
  exact wp_mono finalizeCurrent_faulty (fun _ _ _ => htaken) fun _ _ => Or.inl

/-- Without failing calls, whole buffers are written. -/
theorem writeParts_returns (cw : ChunkedWriter H) {bufs : List Bytes}
    (htakes : TakesAll env bufs) (hcalm : ¬ env.Faulty)
    (hnumber : cw.partNumber + bufs.length < 2 ^ 32) :
    ∃ chunks w', outcome (cw.writeParts env bufs) w =
      (.ok (bufs.map List.length, chunks), w') := by
  have hreturn : wp (cw.writeParts env bufs) (fun r _ => r.1 = bufs.map List.length)
      (fun _ _ => False) w :=
    wp_mono (writeParts_takesAll cw htakes) (fun _ _ h => h)
      fun _ _ h => h.elim hcalm (not_le.mpr hnumber)
  obtain ⟨⟨taken, chunks⟩, w', hrun, rfl⟩ := exists_of_wp hreturn
  exact ⟨chunks, w', hrun⟩

end TakesAll

/-! ## The limit -/

/-- All part files but the last have exactly the size of the limit, and none has more, when
the bytes taken of no buffer cross a multiple of the limit, only then. An output that takes
whole buffers takes the lengths of the buffers. -/
theorem partFiles_filled_iff (env : Env) (backend : BackendSpec) (volume snapshot : String)
    (mib : ℕ) (hmib : 1 ≤ mib) (bufs : List Bytes) (w w' : World) (taken : List ℕ)
    (chunks : List ChunkFilename)
    (hrun : outcome ((ChunkedWriter.new H backend volume snapshot
      (mib * 1024 * 1024)).writeParts env bufs) w = (.ok (taken, chunks), w')) :
    (Filled (mib * 1024 * 1024) (chunks.map (partFileSize w'.store volume snapshot)) ↔
      NoCrossing (mib * 1024 * 1024) taken) ∧
    (TakesAll env bufs → taken = bufs.map List.length) := by
  have hsizes := wp_ok (writeParts_sizes backend bufs) hrun
  simp only at hsizes
  rw [hsizes, filled_fill_iff (by omega)]
  refine ⟨Iff.rfl, fun htakes => ?_⟩
  have htaken := wp_ok (writeParts_takesAll _ htakes) hrun
  exact htaken

/-- Outputs take up to 32 KiB at a time, and no call fails. -/
def Env.wide : Env := { Env.calm with accept := fun _ => 32768 }

theorem wide_calm : ¬ Env.wide.Faulty := by
  rintro ⟨n, h, hfault⟩
  cases hfault

theorem takesAll_wide {bufs : List Bytes} (h : ∀ b ∈ bufs, b.length ≤ 32768) :
    TakesAll Env.wide bufs := by
  intro b hb n
  have haccept : Env.wide.accept n = 32768 := rfl
  have hlen := h b hb
  rw [ChunkOutput.accepted, haccept]
  omega

/-- Two MiB in buffers of 32 KiB, and one byte. -/
def alignedBuffers : List Bytes := List.replicate 64 (List.replicate 32768 0) ++ [[0]]

theorem alignedBuffers_lengths :
    alignedBuffers.map List.length = List.replicate 64 32768 ++ [1] := by
  simp only [alignedBuffers, List.map_append, List.map_cons, List.map_nil, List.map_replicate,
    List.length_replicate, List.length_singleton]

/-- Two full part files and a third one for the byte. -/
theorem partFiles_filled_iff_aligned :
    ∃ chunks w', outcome ((ChunkedWriter.new .keepAll .localDir "vol" "20250101"
        (1 * 1024 * 1024)).writeParts Env.wide alignedBuffers) (World.start fun _ => none) =
        (.ok (List.replicate 64 32768 ++ [1], chunks), w') ∧
      chunks.map (partFileSize w'.store "vol" "20250101") = [1048576, 1048576, 1] ∧
      (Filled (1 * 1024 * 1024) (chunks.map (partFileSize w'.store "vol" "20250101")) ↔
        NoCrossing (1 * 1024 * 1024) (List.replicate 64 32768 ++ [1])) ∧
      NoCrossing (1 * 1024 * 1024) (List.replicate 64 32768 ++ [1]) := by
  have htakes : TakesAll Env.wide alignedBuffers := by
    apply takesAll_wide
    intro b hb
    rcases List.mem_append.mp hb with hb | hb
    · rw [List.eq_of_mem_replicate hb, List.length_replicate]
    · rw [List.mem_singleton.mp hb, List.length_singleton]
      omega
  have hlength : alignedBuffers.length = 65 := by
    rw [alignedBuffers, List.length_append, List.length_replicate, List.length_singleton]
  let cw := ChunkedWriter.new .keepAll .localDir "vol" "20250101" (1 * 1024 * 1024)
  have hnumber : cw.partNumber + alignedBuffers.length < 2 ^ 32 := by
    rw [hlength]
    decide
  obtain ⟨chunks, w', hrun⟩ := writeParts_returns (w := World.start fun _ => none) cw htakes
    wide_calm hnumber
  rw [alignedBuffers_lengths] at hrun
  have hsizes : chunks.map (partFileSize w'.store "vol" "20250101") = [1048576, 1048576, 1] := by
    have hfill := wp_ok (writeParts_sizes .localDir alignedBuffers) hrun
    simp only at hfill
    rw [hfill]
    decide +kernel
  obtain ⟨hiff, -⟩ := partFiles_filled_iff Env.wide .localDir "vol" "20250101" 1 le_rfl
    alignedBuffers (World.start fun _ => none) w' _ chunks hrun
  refine ⟨chunks, w', hrun, hsizes, hiff, hiff.mp ?_⟩
  rw [hsizes]
  exact ⟨by decide, by decide⟩

/-- One byte, and then a MiB in buffers of 32 KiB. -/
def unalignedBuffers : List Bytes := [0] :: List.replicate 32 (List.replicate 32768 0)

theorem unalignedBuffers_lengths :
    unalignedBuffers.map List.length = 1 :: List.replicate 32 32768 := by
  simp only [unalignedBuffers, List.map_cons, List.map_replicate, List.length_replicate,
    List.length_singleton]

/-- With a limit of one MiB, one byte and a MiB make a single part file. -/
theorem partFiles_filled_unaligned :
    ∃ taken chunks w', outcome ((ChunkedWriter.new .keepAll .localDir "vol" "20250101"
        (1 * 1024 * 1024)).writeParts Env.wide unalignedBuffers) (World.start fun _ => none) =
        (.ok (taken, chunks), w') ∧
      chunks.map (partFileSize w'.store "vol" "20250101") = [1048577] ∧
      ¬ Filled (1 * 1024 * 1024) (chunks.map (partFileSize w'.store "vol" "20250101")) := by
  have htakes : TakesAll Env.wide unalignedBuffers := by
    apply takesAll_wide
    intro b hb
    rcases List.mem_cons.mp hb with rfl | hb
    · simp
    · rw [List.eq_of_mem_replicate hb, List.length_replicate]
  have hlength : unalignedBuffers.length = 33 := by
    rw [unalignedBuffers, List.length_cons, List.length_replicate]
  let cw := ChunkedWriter.new .keepAll .localDir "vol" "20250101" (1 * 1024 * 1024)
  have hnumber : cw.partNumber + unalignedBuffers.length < 2 ^ 32 := by
    rw [hlength]
    decide
  obtain ⟨chunks, w', hrun⟩ := writeParts_returns (w := World.start fun _ => none) cw
    htakes wide_calm hnumber
  have hsizes : chunks.map (partFileSize w'.store "vol" "20250101") = [1048577] := by
    have hfill := wp_ok (writeParts_sizes .localDir unalignedBuffers) hrun
    simp only at hfill
    rw [hfill, unalignedBuffers_lengths]
    decide
  refine ⟨_, chunks, w', hrun, hsizes, fun h => ?_⟩
  rw [hsizes] at h
  exact absurd (h.1 1048577 (by simp)) (by decide)

end Bbkar
