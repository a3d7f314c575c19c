import Bbkar.ChunkedWriter
import Bbkar.Filling

/-!
# What the chunk writer has written

The writer is described by the parts it has finished and the bytes of the part it has
open. Writing appends to what was written before, wherever a new part begins, and it
touches no other object than part files of its own snapshot.
-/
namespace Bbkar
open Codec Effects Filling Function

/-! ## Frames -/

/-- The two stores differ only at keys in `S`, and where they do, in something that is no
metadata. -/
structure DiffersAt (S : String → Prop) (store store' : Store) : Prop where
  outside : ∀ k, ¬ S k → store' k = store k
  metadata : ∀ k m, store' k = some (.metadata m) → store k = some (.metadata m)

theorem DiffersAt.refl {S : String → Prop} (store : Store) : DiffersAt S store store :=
  ⟨fun _ _ => rfl, fun _ _ h => h⟩

theorem DiffersAt.update {S : String → Prop} {store store' : Store}
    (h : DiffersAt S store store') {key : String} (hk : S key) (bytes : Option Bytes) :
    DiffersAt S store (update store' key (bytes.map .part)) := by
  refine ⟨fun k hn => ?_, fun k m hm => ?_⟩
  · have hne : k ≠ key := by
      rintro rfl
      exact hn hk
    rw [update_of_ne hne, h.outside k hn]
  · by_cases hkey : k = key
    · subst hkey
      cases bytes <;> simp at hm
    · rw [update_of_ne hkey] at hm
      exact h.metadata k m hm

/-- Only objects with keys in `S` have changed from `w` to `w'`, as part files. -/
structure OnlyParts (S : String → Prop) (w w' : World) : Prop where
  store : DiffersAt S w.store w'.store
  trace : ∃ new, w'.trace = new ++ w.trace ∧ ∀ e ∈ new,
    (∃ k, S k ∧ e.event = .writePart k) ∧ DiffersAt S w.store e.before ∧
      DiffersAt S w.store e.after
  stats : w'.sent = w.sent ∧ w'.remote = w.remote ∧ w'.totalBytesSent = w.totalBytesSent

namespace OnlyParts

variable {S : String → Prop} {w₀ w : World}

theorem refl (w : World) : OnlyParts S w w := ⟨.refl _, ⟨[], rfl, by simp⟩, rfl, rfl, rfl⟩

theorem tick (h : OnlyParts S w₀ w) : OnlyParts S w₀ w.tick := ⟨h.store, h.trace, h.stats⟩

theorem log (h : OnlyParts S w₀ w) {key : String} (hk : S key) (bytes : Option Bytes) :
    OnlyParts S w₀ (w.log (.writePart key) (update w.store key (bytes.map .part))) := by
  obtain ⟨hstore, ⟨new, htrace, hnew⟩, hstats⟩ := h
  refine ⟨hstore.update hk bytes, ⟨_ :: new, by rw [World.log_trace, htrace]; rfl, ?_⟩, hstats⟩
  intro e he
  rcases List.mem_cons.mp he with rfl | he
  · exact ⟨⟨key, hk, rfl⟩, hstore, hstore.update hk bytes⟩
  · exact hnew e he

/-- Leftovers of a failed write stay among the part files of the snapshot. -/
theorem applyLeftover {v s : String} (h : OnlyParts (PartsOf v s) w₀ w) (env : Env) :
    OnlyParts (PartsOf v s) w₀ (applyLeftover env v s w) := by
  unfold Bbkar.applyLeftover
  generalize env.leftover w.calls = files
  induction files generalizing w with
  | nil => exact h
  | cons file files ih => exact ih (h.log ⟨file.1, rfl⟩ _)

end OnlyParts

/-! ## Parts -/

/-- A finished chunk with the bytes it stands for. -/
abbrev Parts := List (ChunkFilename × Bytes)

structure Describes (H : IncrementalHash) (c : ChunkFilename) (bytes : Bytes) : Prop where
  size : c.size = bytes.length % 2 ^ 32
  sha256sum : c.sha256sum = some (hexOf (H.digest bytes))

/-- The parts are numbered from one, and each file holds the bytes its chunk describes. -/
structure Stored (H : IncrementalHash) (store : Store) (volume snapshot : String)
    (parts : Parts) : Prop where
  names : parts.map (·.1.filename) = (List.range' 1 parts.length).map partFilename
  describes : ∀ p ∈ parts, Describes H p.1 p.2
  files : ∀ p ∈ parts, HasPart store (pathInSnapshot volume snapshot p.1.filename) p.2

/-- The bytes an output has taken so far. -/
def ChunkOutput.Holds (store : Store) (key : String) (bytes : Bytes) : ChunkOutput → Prop
  | .localFile k => k = key ∧ HasPart store key bytes
  | .remote k buffered => k = key ∧ buffered = bytes

/-- The open part, with its number. -/
structure OpenPart {H : IncrementalHash} (store : Store) (cw : ChunkedWriter H) (n : ℕ)
    (bytes : Bytes) : Prop where
  file : ∃ file, cw.currentFile = some file ∧
    file.Holds store (partKey cw.volume cw.snapshot n) bytes
  filename : cw.currentFilename = partFilename n
  size : cw.currentSize = bytes.length
  hasher : cw.currentHasher = H.update H.init bytes

/-- The state of a writer after some finished parts and perhaps an open one. The parts stay
below the limit plus `B`, a bound on the buffers. -/
structure WriterAt {H : IncrementalHash} (volume snapshot : String) (limit B : ℕ)
    (store : Store) (cw : ChunkedWriter H) (parts : Parts) (cur : Option Bytes) : Prop where
  volume_eq : cw.volume = volume
  snapshot_eq : cw.snapshot = snapshot
  limit_eq : cw.maxChunkBytes = limit
  written : cw.writtenChunks = parts.map Prod.fst
  stored : Stored H store volume snapshot parts
  number : cw.partNumber = parts.length + cur.toList.length
  noFile : cur = none → cw.currentFile = none
  openPart : ∀ bytes, cur = some bytes → OpenPart store cw (parts.length + 1) bytes
  short : (∀ p ∈ parts, p.2.length < max limit 1 + B) ∧ ∀ bytes, cur = some bytes →
    bytes.length < max limit 1 + B

/-- Everything written so far. -/
def content (parts : Parts) (cur : Option Bytes) : Bytes :=
  (parts.map Prod.snd).flatten ++ cur.getD []

/-- The sizes of the finished parts, and of the open one. -/
def partSizes (parts : Parts) (cur : Option Bytes) : Boxes :=
  ⟨parts.map (·.2.length), cur.map List.length⟩

theorem partKey_injective (volume snapshot : String) : Injective (partKey volume snapshot) := by
  intro m n h
  simp only [partKey, pathInSnapshot] at h
  have hl := congrArg String.toList h
  simp only [String.toList_append, List.append_cancel_left_eq, String.toList_inj] at hl
  rw [trimMatches_eq_self (slashFree_partFilename m),
    trimMatches_eq_self (slashFree_partFilename n)] at hl
  exact partFilename_injective hl

namespace Stored

variable {H : IncrementalHash} {store store' : Store} {v s : String} {parts : Parts}

theorem nil : Stored H store v s [] := ⟨rfl, by simp, by simp⟩

/-- Every finished part has a number up to the number of parts. -/
theorem number (h : Stored H store v s parts) {p : ChunkFilename × Bytes} (hp : p ∈ parts) :
    ∃ n, n ≤ parts.length ∧ p.1.filename = partFilename n := by
  have hmem : p.1.filename ∈ parts.map (·.1.filename) := List.mem_map_of_mem hp
  rw [h.names] at hmem
  obtain ⟨n, hn, hname⟩ := List.mem_map.mp hmem
  rw [List.mem_range'_1] at hn
  exact ⟨n, by omega, hname.symm⟩

theorem nodup (h : Stored H store v s parts) : (parts.map (·.1.filename)).Nodup := by
  rw [h.names]
  exact (List.nodup_range' ..).map partFilename_injective

/-- Finished parts survive changes of files with higher numbers. -/
theorem congr (h : Stored H store v s parts)
    (hstore : ∀ n, n ≤ parts.length → store' (partKey v s n) = store (partKey v s n)) :
    Stored H store' v s parts := by
  refine ⟨h.names, h.describes, ?_⟩
  intro p hp
  obtain ⟨n, hn, hname⟩ := h.number hp
  have hfile := h.files p hp
  rw [hname] at hfile ⊢
  exact (hstore n hn).trans hfile

theorem concat (h : Stored H store v s parts) {c : ChunkFilename} {bytes : Bytes}
    (hname : c.filename = partFilename (parts.length + 1)) (hc : Describes H c bytes)
    (hfile : HasPart store (partKey v s (parts.length + 1)) bytes) :
    Stored H store v s (parts ++ [(c, bytes)]) := by
  refine ⟨?_, ?_, ?_⟩
  · rw [List.map_append, h.names, List.length_append, List.length_singleton,
      List.range'_concat, List.map_append]
    simp [hname, Nat.add_comm]
  · intro p hp
    rcases List.mem_append.mp hp with hp | hp
    · exact h.describes p hp
    · rw [List.mem_singleton.mp hp]
      exact hc
  · intro p hp
    rcases List.mem_append.mp hp with hp | hp
    · exact h.files p hp
    · rw [List.mem_singleton.mp hp, hname]
      exact hfile

end Stored

/-! ## Operations on one output -/

section Operations

variable {H : IncrementalHash} {env : Env} {v s : String} {limit B : ℕ} {w₀ w : World}

theorem ChunkOutput.close_spec {file : ChunkOutput} {n : ℕ} {bytes : Bytes}
    (hf : OnlyParts (PartsOf v s) w₀ w) (hh : file.Holds w.store (partKey v s n) bytes) :
    wp (file.close env)
      (fun _ w' => OnlyParts (PartsOf v s) w₀ w' ∧ HasPart w'.store (partKey v s n) bytes ∧
        ∀ k, k ≠ partKey v s n → w'.store k = w.store k)
      (fun _ w' => OnlyParts (PartsOf v s) w₀ w') w := by
  cases file with
  | localFile key =>
    simp only [ChunkOutput.close, wp_bind, wp_call, wp_pure]
    exact ⟨fun _ => ⟨hf.tick, hh.2, fun _ _ => rfl⟩, fun _ _ => hf.tick⟩
  | remote key buffered =>
    obtain ⟨rfl, rfl⟩ := hh
    simp only [ChunkOutput.close, wp_bind, wp_call, wp_putObject]
    refine ⟨fun _ => ⟨hf.tick.log ⟨n, rfl⟩ (some _), ?_, ?_⟩, fun _ _ => hf.tick⟩
    · simp [HasPart]
    · intro k hk
      simp [hk]

/-- The output takes a prefix of the buffer, not the empty one of a buffer with bytes. -/
theorem ChunkOutput.write_spec {file : ChunkOutput} {n : ℕ} {bytes : Bytes} (buf : Bytes)
    (hf : OnlyParts (PartsOf v s) w₀ w) (hh : file.Holds w.store (partKey v s n) bytes) :
    wp (file.write env buf)
      (fun r w' => r.1 ≤ buf.length ∧ (buf ≠ [] → 0 < r.1) ∧ OnlyParts (PartsOf v s) w₀ w' ∧
        r.2.Holds w'.store (partKey v s n) (bytes ++ buf.take r.1) ∧
        ∀ k, k ≠ partKey v s n → w'.store k = w.store k)
      (fun _ w' => OnlyParts (PartsOf v s) w₀ w') w := by
  have hpos : ∀ m, buf ≠ [] → 0 < ChunkOutput.accepted env m buf := by
    intro m hbuf
    have := List.length_pos_iff.mpr hbuf
    unfold ChunkOutput.accepted
    omega
  cases file with
  | localFile key =>
    obtain ⟨rfl, hbytes⟩ := hh
    simp only [ChunkOutput.write, wp_bind, wp_call, wp_get, wp_putObject, wp_pure]
    refine ⟨fun _ => ⟨Nat.min_le_left _ _, hpos _, hf.tick.log ⟨n, rfl⟩ (some _), ⟨rfl, ?_⟩, ?_⟩,
      fun _ _ => hf.tick⟩
    · have hold : partBytes w.store (partKey v s n) = bytes := by
        rw [partBytes, show w.store (partKey v s n) = some (.part bytes) from hbytes]
      simp [HasPart, hold]
    · intro k hk
      simp [hk]
  | remote key buffered =>
    obtain ⟨rfl, rfl⟩ := hh
    simp only [ChunkOutput.write, wp_bind, wp_call, wp_pure]
    exact ⟨fun _ => ⟨Nat.min_le_left _ _, hpos _, hf.tick, ⟨rfl, rfl⟩, fun _ _ => rfl⟩,
      fun _ _ => hf.tick⟩

/-! ## Operations of the writer -/

theorem WriterAt.finalizeCurrent_spec {cw : ChunkedWriter H} {parts : Parts}
    {cur : Option Bytes} (h : WriterAt v s limit B w.store cw parts cur)
    (hf : OnlyParts (PartsOf v s) w₀ w) :
    wp (cw.finalizeCurrent env)
      (fun cw' w' => OnlyParts (PartsOf v s) w₀ w' ∧
        ∃ parts', WriterAt v s limit B w'.store cw' parts' none ∧
          content parts' none = content parts cur ∧
          partSizes parts' none = ⟨(partSizes parts cur).all, none⟩)
      (fun _ w' => OnlyParts (PartsOf v s) w₀ w') w := by
  cases cur with
  | none =>
    unfold ChunkedWriter.finalizeCurrent
    rw [h.noFile rfl]
    exact ⟨hf, parts, h, rfl, by simp [partSizes, Boxes.all]⟩
  | some bytes =>
    obtain ⟨⟨file, hfile, hh⟩, hname, hsize, hhash⟩ := h.openPart bytes rfl
    rw [h.volume_eq, h.snapshot_eq] at hh
    unfold ChunkedWriter.finalizeCurrent
    rw [hfile]
    simp only [wp_bind, wp_pure]
    refine wp_mono_ok (ChunkOutput.close_spec hf hh) ?_
    rintro _ w' ⟨hf', hpart, hother⟩
    refine ⟨hf', parts ++ [(cw.currentChunk, bytes)], ?_, by simp [content],
      by simp [partSizes, Boxes.all]⟩
    have hkept : Stored H w'.store v s parts := by
      refine h.stored.congr fun m hm => hother _ fun heq => ?_
      have := partKey_injective v s heq
      omega
    refine ⟨h.volume_eq, h.snapshot_eq, h.limit_eq, by simp [h.written], ?_, by simp [h.number],
      fun _ => rfl, by simp, ?_, by simp⟩
    · refine hkept.concat hname ⟨?_, ?_⟩ hpart
      · simp [ChunkedWriter.currentChunk, hsize]
      · simp [ChunkedWriter.currentChunk, hhash, IncrementalHash.digest]
    · intro p hp
      rcases List.mem_append.mp hp with hp | hp
      · exact h.short.1 p hp
      · rw [List.mem_singleton.mp hp]
        exact h.short.2 bytes rfl

theorem openNextChunk_spec {cw : ChunkedWriter H} (hv : cw.volume = v) (hs : cw.snapshot = s)
    (n : ℕ) (hf : OnlyParts (PartsOf v s) w₀ w) :
    wp (cw.openNextChunk env (partFilename n))
      (fun file w' => OnlyParts (PartsOf v s) w₀ w' ∧
        file.Holds w'.store (partKey v s n) [] ∧
        ∀ k, k ≠ partKey v s n → w'.store k = w.store k)
      (fun _ w' => OnlyParts (PartsOf v s) w₀ w') w := by
  subst hv hs
  unfold ChunkedWriter.openNextChunk
  simp only [wp_bind, wp_call]
  refine ⟨fun _ => ?_, fun _ _ => hf.tick⟩
  cases cw.backend with
  | localDir =>
    simp only [wp_bind, wp_putObject, wp_pure]
    refine ⟨hf.tick.log ⟨n, rfl⟩ (some _), ⟨rfl, by simp [HasPart, partKey]⟩, ?_⟩
    intro k hk
    simp only [partKey] at hk
    simp [hk]
  | objectStorage => exact ⟨hf.tick, ⟨rfl, rfl⟩, fun _ _ => rfl⟩

/-- Rolling closes the open part and opens an empty one, unless the numbers run out. -/
theorem WriterAt.rollNext_spec {cw : ChunkedWriter H} {parts : Parts}
    {cur : Option Bytes} (h : WriterAt v s limit B w.store cw parts cur)
    (hf : OnlyParts (PartsOf v s) w₀ w) :
    wp (cw.rollNext env)
      (fun cw' w' => OnlyParts (PartsOf v s) w₀ w' ∧
        ∃ parts', WriterAt v s limit B w'.store cw' parts' (some []) ∧
          content parts' (some []) = content parts cur ∧
          partSizes parts' (some []) = ⟨(partSizes parts cur).all, some 0⟩)
      (fun _ w' => OnlyParts (PartsOf v s) w₀ w') w := by
  unfold ChunkedWriter.rollNext
  rw [wp_bind]
  refine wp_mono_ok (h.finalizeCurrent_spec hf) ?_
  rintro cw₁ w₁ ⟨hf₁, parts', h₁, hcontent, hsizes⟩
  split_ifs with hnumber
  · have hn : cw₁.partNumber = parts'.length := by simpa using h₁.number
    simp only [wp_bind, wp_pure, hn]
    refine wp_mono_ok (openNextChunk_spec h₁.volume_eq h₁.snapshot_eq (parts'.length + 1) hf₁) ?_
    rintro file w₂ ⟨hf₂, hholds, hother⟩
    refine ⟨hf₂, parts', ?_, by simpa [content] using hcontent, ?_⟩
    swap
    · simpa [partSizes] using congrArg Boxes.closed hsizes
    have hkept : Stored H w₂.store v s parts' := by
      refine h₁.stored.congr fun m hm => hother _ fun heq => ?_
      have := partKey_injective v s heq
      omega
    refine ⟨h₁.volume_eq, h₁.snapshot_eq, h₁.limit_eq, h₁.written, hkept, by simp, by simp, ?_,
      h₁.short.1, ?_⟩
    · rintro bytes hb
      obtain rfl : [] = bytes := by simpa using hb
      exact ⟨⟨file, rfl, by rw [h₁.volume_eq, h₁.snapshot_eq]; exact hholds⟩, rfl, rfl,
        (H.update_nil _).symm⟩
    · rintro bytes hb
      obtain rfl : [] = bytes := by simpa using hb
      simp only [List.length_nil]
      omega
  · exact hf₁

/-- After the check there is an open part below the limit. -/
theorem WriterAt.ensureChunk_spec {cw : ChunkedWriter H} {parts : Parts}
    {cur : Option Bytes} (h : WriterAt v s limit B w.store cw parts cur)
    (hf : OnlyParts (PartsOf v s) w₀ w) :
    wp (cw.ensureChunk env)
      (fun cw' w' => OnlyParts (PartsOf v s) w₀ w' ∧ ∃ parts' bytes,
        WriterAt v s limit B w'.store cw' parts' (some bytes) ∧ bytes.length < max limit 1 ∧
          content parts' (some bytes) = content parts cur ∧
          partSizes parts' (some bytes) = (partSizes parts cur).ready limit)
      (fun _ w' => OnlyParts (PartsOf v s) w₀ w') w := by
  unfold ChunkedWriter.ensureChunk
  split_ifs with hroll
  · refine wp_mono_ok (h.rollNext_spec hf) ?_
    rintro cw' w' ⟨hf', parts', h', hc, hsizes⟩
    refine ⟨hf', parts', [], h', by simp, hc, hsizes.trans ?_⟩
    cases cur with
    | none => simp [partSizes, Boxes.all, Boxes.ready]
    | some bytes =>
      obtain ⟨⟨file, hfile, -⟩, -, hsize, -⟩ := h.openPart bytes rfl
      have hfull : limit ≤ bytes.length := by simpa [hfile, hsize, h.limit_eq] using hroll
      simp [partSizes, Boxes.all, Boxes.ready, hfull]
  · simp only [Bool.or_eq_true, decide_eq_true_eq, not_or, not_le] at hroll
    cases cur with
    | none => simp [h.noFile rfl] at hroll
    | some bytes =>
      have hlt := hroll.2
      rw [(h.openPart bytes rfl).size, h.limit_eq] at hlt
      refine ⟨hf, parts, bytes, h, by omega, rfl, ?_⟩
      simp [partSizes, Boxes.ready, not_le.mpr hlt]

/-- One call of `write` appends the part of the buffer it reports. -/
theorem WriterAt.write_spec {cw : ChunkedWriter H} {parts : Parts}
    {cur : Option Bytes} (h : WriterAt v s limit B w.store cw parts cur)
    (hf : OnlyParts (PartsOf v s) w₀ w) {buf : Bytes} (hbuf : buf.length ≤ B) :
    wp (cw.write env buf)
      (fun r w' => r.1 ≤ buf.length ∧ (buf ≠ [] → 0 < r.1) ∧ OnlyParts (PartsOf v s) w₀ w' ∧
        ∃ parts' cur', WriterAt v s limit B w'.store r.2 parts' cur' ∧
          content parts' cur' = content parts cur ++ buf.take r.1 ∧
          partSizes parts' cur' = ((partSizes parts cur).ready limit).put r.1)
      (fun _ w' => OnlyParts (PartsOf v s) w₀ w') w := by
  unfold ChunkedWriter.write
  rw [wp_bind]
  refine wp_mono_ok (h.ensureChunk_spec hf) ?_
  rintro cw₁ w₁ ⟨hf₁, parts₁, bytes, h₁, hlt, hc₁, hsizes⟩
  obtain ⟨⟨file, hfile, hh⟩, hname, hsize, hhash⟩ := h₁.openPart bytes rfl
  rw [h₁.volume_eq, h₁.snapshot_eq] at hh
  unfold ChunkedWriter.writeCurrent
  rw [hfile]
  simp only [wp_bind, wp_pure]
  refine wp_mono_ok (ChunkOutput.write_spec buf hf₁ hh) ?_
  rintro ⟨written, file'⟩ w₂ ⟨hle, hpos, hf₂, hh₂, hother⟩
  refine ⟨hle, hpos, hf₂, parts₁, some (bytes ++ buf.take written), ?_, ?_, ?_⟩
  · have hkept : Stored H w₂.store v s parts₁ := by
      refine h₁.stored.congr fun m hm => hother _ fun heq => ?_
      have := partKey_injective v s heq
      omega
    refine ⟨h₁.volume_eq, h₁.snapshot_eq, h₁.limit_eq, h₁.written, hkept,
      by simpa using h₁.number, by simp, ?_, h₁.short.1, ?_⟩
    · rintro bytes' hb
      obtain rfl := Option.some.inj hb
      refine ⟨⟨file', rfl, by rw [h₁.volume_eq, h₁.snapshot_eq]; exact hh₂⟩, hname, ?_, ?_⟩
      · simp only at hle
        simp [hsize, Nat.min_eq_left hle]
      · simp [hhash, H.update_append]
    · rintro bytes' hb
      obtain rfl := Option.some.inj hb
      simp only at hle
      simp only [List.length_append, List.length_take]
      omega
  · rw [← hc₁]
    simp [content]
  · rw [← hsizes]
    simp only at hle
    simp [partSizes, Boxes.put, Nat.min_eq_left hle]

/-- The caller's loop appends the whole buffer. -/
theorem WriterAt.writeAll_spec (fuel : ℕ) {w : World} {cw : ChunkedWriter H}
    {parts : Parts} {cur : Option Bytes} (h : WriterAt v s limit B w.store cw parts cur)
    (hf : OnlyParts (PartsOf v s) w₀ w) {buf : Bytes} (hbuf : buf.length ≤ B)
    (hfuel : buf.length ≤ fuel) :
    wp (ChunkedWriter.writeAll env fuel cw buf)
      (fun cw' w' => OnlyParts (PartsOf v s) w₀ w' ∧
        ∃ parts' cur', WriterAt v s limit B w'.store cw' parts' cur' ∧
          content parts' cur' = content parts cur ++ buf)
      (fun _ w' => OnlyParts (PartsOf v s) w₀ w') w := by
  unfold ChunkedWriter.writeAll
  rw [wp_bind]
  refine wp_mono_ok (h.write_spec hf hbuf) ?_
  rintro ⟨written, cw'⟩ w' ⟨hle, hpos, hf', parts', cur', h', hc, -⟩
  simp only at hle hpos h' hc ⊢
  split_ifs with hrest
  · have hall : buf.take written = buf := by
      rw [List.drop_eq_nil_iff] at hrest
      exact List.take_of_length_le hrest
    exact ⟨hf', parts', cur', h', by rw [hc, hall]⟩
  · have hne : buf ≠ [] := by
      rintro rfl
      simp at hrest
    have hsome := hpos hne
    cases fuel with
    | zero => omega
    | succ fuel =>
      have hlen : (buf.drop written).length ≤ fuel := by
        rw [List.length_drop]
        omega
      have hshort : (buf.drop written).length ≤ B := by
        rw [List.length_drop]
        omega
      refine wp_mono_ok (h'.writeAll_spec fuel hf' hshort hlen) ?_
      rintro cw'' w'' ⟨hf'', parts'', cur'', h'', hc''⟩
      refine ⟨hf'', parts'', cur'', h'', ?_⟩
      rw [hc'', hc, List.append_assoc, List.take_append_drop]

theorem WriterAt.writeBuffers_spec {cw : ChunkedWriter H} {parts : Parts}
    {cur : Option Bytes} (h : WriterAt v s limit B w.store cw parts cur)
    (hf : OnlyParts (PartsOf v s) w₀ w) {bufs : List Bytes} (hbufs : ∀ b ∈ bufs, b.length ≤ B) :
    wp (cw.writeBuffers env bufs)
      (fun cw' w' => OnlyParts (PartsOf v s) w₀ w' ∧
        ∃ parts' cur', WriterAt v s limit B w'.store cw' parts' cur' ∧
          content parts' cur' = content parts cur ++ bufs.flatten)
      (fun _ w' => OnlyParts (PartsOf v s) w₀ w') w := by
  let I : List Bytes → ChunkedWriter H → World → Prop := fun rest cw' w' =>
    (∀ b ∈ rest, b.length ≤ B) ∧ OnlyParts (PartsOf v s) w₀ w' ∧
      ∃ parts' cur', WriterAt v s limit B w'.store cw' parts' cur' ∧
        content parts' cur' ++ rest.flatten = content parts cur ++ bufs.flatten
  have hloop := wp_foldlM (ε := Halt) (I := I) (E := fun _ w' => OnlyParts (PartsOf v s) w₀ w')
    (f := fun cw buf => ChunkedWriter.writeAll env buf.length cw buf) bufs cw ?_
    (s := w) ⟨hbufs, hf, parts, cur, h, rfl⟩
  · refine wp_mono_ok hloop ?_
    rintro cw' w' ⟨-, hf', parts', cur', h', hc⟩
    exact ⟨hf', parts', cur', h', by simpa using hc⟩
  · rintro buf rest cw₁ w₁ ⟨hrest, hf₁, parts₁, cur₁, h₁, hc₁⟩
    refine wp_mono_ok (h₁.writeAll_spec _ hf₁ (hrest buf (by simp)) le_rfl) ?_
    rintro cw' w' ⟨hf', parts', cur', h', hc⟩
    refine ⟨fun b hb => hrest b (List.mem_cons_of_mem _ hb), hf', parts', cur', h', ?_⟩
    rw [hc, List.append_assoc, ← List.flatten_cons, hc₁]

/-- After `finish` the chunks are those of the stored parts, and their bytes are all that
was written. -/
theorem WriterAt.finish_spec {cw : ChunkedWriter H} {parts : Parts} {cur : Option Bytes}
    (h : WriterAt v s limit B w.store cw parts cur) (hf : OnlyParts (PartsOf v s) w₀ w) :
    wp (cw.finish env)
      (fun chunks w' => OnlyParts (PartsOf v s) w₀ w' ∧
        ∃ parts', chunks = parts'.map Prod.fst ∧ Stored H w'.store v s parts' ∧
          (∀ p ∈ parts', p.2.length < max limit 1 + B) ∧
          (parts'.map Prod.snd).flatten = content parts cur ∧
          parts'.map (·.2.length) = (partSizes parts cur).all)
      (fun _ w' => OnlyParts (PartsOf v s) w₀ w') w := by
  unfold ChunkedWriter.finish
  simp only [wp_bind, wp_pure]
  refine wp_mono_ok (h.finalizeCurrent_spec hf) ?_
  rintro cw' w' ⟨hf', parts', h', hc, hsizes⟩
  exact ⟨hf', parts', h'.written, h'.stored, h'.short.1, by simpa [content] using hc,
    congrArg Boxes.closed hsizes⟩

/-- A new writer has written nothing. -/
theorem writerAt_new (H : IncrementalHash) (backend : BackendSpec) (v s : String)
    (limit B : ℕ) (store : Store) :
    WriterAt v s limit B store (ChunkedWriter.new H backend v s limit) [] none :=
  ⟨rfl, rfl, rfl, rfl, .nil, rfl, fun _ => rfl, by simp, by simp, by simp⟩

end Operations

end Bbkar
