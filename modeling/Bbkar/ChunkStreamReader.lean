import Bbkar.ChunkParts

/-!
# Reading chunk files back

Translation of `ChunkStreamReader`, and that it undoes `ChunkedWriter`: whatever the sizes
of the reads, they deliver the bytes the parts stand for, in order, and report the end
only after the last byte.
-/
namespace Bbkar
open Codec Effects Function

structure ChunkStreamReader where
  volume : String
  snapshotRaw : String
  chunkFilenames : List String
  currentIdx : ℕ
  currentCursor : Option (Bytes × ℕ)

namespace ChunkStreamReader

def new (volume : String) (archive : VolumeArchive) : ChunkStreamReader :=
  ⟨volume, archive.raw, archive.chunks.map (·.filename), 0, none⟩

/-- Whether there was another chunk. An object that is no part file cannot be read as one. -/
def loadNextChunk (env : Env) (r : ChunkStreamReader) : Act (Bool × ChunkStreamReader) :=
  match r.chunkFilenames[r.currentIdx]? with
  | none => return (false, r)
  | some chunkName => do
    let path := pathInSnapshot r.volume r.snapshotRaw chunkName
    let _ ← call env
    let w ← get
    match w.store path with
    | some (.part data) =>
      return (true, { r with currentCursor := some (data, 0), currentIdx := r.currentIdx + 1 })
    | _ => throw (.err (.io ("not found: " ++ path)))

/-- `Cursor::read`, empty when no chunk is loaded. -/
def readCursor (r : ChunkStreamReader) (len : ℕ) : Bytes × ChunkStreamReader :=
  match r.currentCursor with
  | none => ([], r)
  | some (data, pos) =>
    let piece := (data.drop pos).take len
    (piece, { r with currentCursor := some (data, pos + piece.length) })

/-- The loop of `read`. The fuel is the number of chunks not loaded yet. -/
def readLoop (env : Env) (len : ℕ) : ℕ → ChunkStreamReader → Act (Bytes × ChunkStreamReader)
  | fuel, r => do
    let (piece, r) := r.readCursor len
    if piece ≠ [] then return (piece, r)
    else
      let (more, r) ← r.loadNextChunk env
      if more then
        match fuel with
        | 0 => throw .diverges
        | fuel + 1 => readLoop env len fuel r
      else return ([], r)

def read (env : Env) (len : ℕ) (r : ChunkStreamReader) : Act (Bytes × ChunkStreamReader) :=
  r.readLoop env len (r.chunkFilenames.length - r.currentIdx)

/-- One read after the other, with buffers of the given sizes. -/
def readMany (env : Env) : List ℕ → ChunkStreamReader → Act (List Bytes)
  | [], _ => return []
  | len :: lens, r => do
    let (piece, r) ← r.read env len
    let pieces ← readMany env lens r
    return piece :: pieces

/-! ## What is left to read -/

def cursorRest (r : ChunkStreamReader) : Bytes :=
  match r.currentCursor with
  | none => []
  | some (data, pos) => data.drop pos

/-- The chunks not loaded yet hold `later`, and `rest` is all that is still to deliver. -/
structure ReaderAt (store : Store) (r : ChunkStreamReader) (rest : Bytes) : Prop where
  left : ∃ later : List Bytes, List.Forall₂
    (fun name bytes => HasPart store (pathInSnapshot r.volume r.snapshotRaw name) bytes)
    (r.chunkFilenames.drop r.currentIdx) later ∧ rest = r.cursorRest ++ later.flatten

theorem readCursor_rest (r : ChunkStreamReader) (len : ℕ) :
    (r.readCursor len).1 = r.cursorRest.take len ∧
      (r.readCursor len).2.cursorRest = r.cursorRest.drop (r.readCursor len).1.length := by
  unfold readCursor cursorRest
  cases hc : r.currentCursor with
  | none => simp [hc]
  | some c => simp [List.drop_drop]

theorem readCursor_readerAt {store : Store} {r : ChunkStreamReader} {rest : Bytes}
    (h : ReaderAt store r rest) (len : ℕ) :
    (r.readCursor len).1 <+: rest ∧
      ReaderAt store (r.readCursor len).2 (rest.drop (r.readCursor len).1.length) := by
  obtain ⟨later, hfiles, rfl⟩ := h.left
  obtain ⟨hpiece, hleft⟩ := readCursor_rest r len
  have hle : (r.readCursor len).1.length ≤ r.cursorRest.length := by
    rw [hpiece, List.length_take]
    exact Nat.min_le_right _ _
  refine ⟨?_, ⟨later, ?_, ?_⟩⟩
  · rw [hpiece]
    exact (List.take_prefix _ _).trans (List.prefix_append _ _)
  · convert hfiles using 1 <;> unfold readCursor <;> cases r.currentCursor <;> rfl
  · rw [List.drop_append_of_le_length hle, hleft]

/-- With the cursor at its end, a chunk is loaded unless everything has been delivered. -/
theorem loadNextChunk_spec {env : Env} {w : World} {r : ChunkStreamReader} {rest : Bytes}
    (h : ReaderAt w.store r rest) (hcursor : r.cursorRest = []) :
    wp (r.loadNextChunk env)
      (fun out w' => w'.store = w.store ∧ w'.trace = w.trace ∧
        ReaderAt w'.store out.2 rest ∧ (out.1 = false → rest = []) ∧
        (out.1 = true → out.2.chunkFilenames = r.chunkFilenames ∧
          out.2.currentIdx = r.currentIdx + 1 ∧ r.currentIdx < r.chunkFilenames.length))
      (fun _ _ => env.Faulty) w := by
  obtain ⟨later, hfiles, hrest⟩ := h.left
  rw [hcursor, List.nil_append] at hrest
  unfold loadNextChunk
  cases hname : r.chunkFilenames[r.currentIdx]? with
  | none =>
    rw [List.getElem?_eq_none_iff] at hname
    rw [List.drop_eq_nil_of_le hname, List.forall₂_nil_left_iff] at hfiles
    subst hfiles
    exact ⟨rfl, rfl, h, fun _ => hrest, by simp⟩
  | some name =>
    obtain ⟨hlt, hget⟩ := List.getElem?_eq_some_iff.mp hname
    rw [List.drop_eq_getElem_cons hlt, hget, List.forall₂_cons_left_iff] at hfiles
    obtain ⟨bytes, later, hfile, hfiles, rfl⟩ := hfiles
    simp only [wp_bind, wp_call, wp_get, World.tick_store]
    refine ⟨fun _ => ?_, fun e he => ⟨w.calls, e, he⟩⟩
    rw [show w.store (pathInSnapshot r.volume r.snapshotRaw name) = some (.part bytes) from hfile]
    refine ⟨rfl, rfl, ⟨later, hfiles, ?_⟩, by simp, fun _ => ⟨rfl, rfl, hlt⟩⟩
    simpa [cursorRest] using hrest

/-- A read delivers the next bytes, at most as many as fit, and none only at the end. -/
theorem readLoop_spec {env : Env} {len : ℕ} (hlen : 0 < len) (fuel : ℕ) {w : World}
    {r : ChunkStreamReader} {rest : Bytes} (h : ReaderAt w.store r rest)
    (hfuel : r.chunkFilenames.length - r.currentIdx ≤ fuel) :
    wp (r.readLoop env len fuel)
      (fun out w' => w'.store = w.store ∧ w'.trace = w.trace ∧ out.1 <+: rest ∧
        out.1.length ≤ len ∧ (out.1 = [] → rest = []) ∧
        ReaderAt w'.store out.2 (rest.drop out.1.length)) (fun _ _ => env.Faulty) w := by
  unfold readLoop
  obtain ⟨hpre, hat⟩ := readCursor_readerAt h len
  obtain ⟨hpiece, -⟩ := readCursor_rest r len
  have hnames : (r.readCursor len).2.chunkFilenames = r.chunkFilenames ∧
      (r.readCursor len).2.currentIdx = r.currentIdx ∧
      (r.cursorRest = [] → (r.readCursor len).2.cursorRest = []) := by
    unfold readCursor cursorRest
    cases hc : r.currentCursor with
    | none => simp [hc]
    | some c => simp +contextual
  rcases hr : r.readCursor len with ⟨piece, r₁⟩
  simp only [hr] at hpre hat hpiece hnames ⊢
  split_ifs with hne
  · refine ⟨rfl, rfl, hpre, ?_, fun hnil => absurd hnil hne, hat⟩
    rw [hpiece, List.length_take]
    exact Nat.min_le_left _ _
  · have hnil : piece = [] := not_not.mp hne
    subst hnil
    have hcursor : r.cursorRest = [] := by
      rcases List.take_eq_nil_iff.mp hpiece.symm with hz | hz
      · omega
      · exact hz
    rw [List.length_nil, List.drop_zero] at hat
    rw [wp_bind]
    refine wp_mono_ok (loadNextChunk_spec hat (hnames.2.2 hcursor)) ?_
    rintro ⟨more, r₂⟩ w₂ ⟨hstore, htrace, hat₂, hend, hmore⟩
    simp only at hat₂ hend hmore ⊢
    cases more with
    | false =>
      exact ⟨hstore, htrace, List.nil_prefix, by simp, fun _ => hend rfl, by simpa using hat₂⟩
    | true =>
      obtain ⟨hn, hidx, hlt⟩ := hmore rfl
      rw [hnames.1] at hn hlt
      rw [hnames.2.1] at hidx hlt
      cases fuel with
      | zero => omega
      | succ fuel =>
        simp only [if_true]
        have hfuel₂ : r₂.chunkFilenames.length - r₂.currentIdx ≤ fuel := by
          rw [hn, hidx]
          omega
        refine wp_mono_ok (readLoop_spec hlen fuel hat₂ hfuel₂) ?_
        rintro out w₃ ⟨hs, ht, hout⟩
        exact ⟨hs.trans hstore, ht.trans htrace, hout⟩

/-- The pieces are consecutive parts of `total`, and empty only once it is used up. -/
def Delivers : Bytes → List ℕ → List Bytes → Prop
  | _, [], pieces => pieces = []
  | total, len :: lens, pieces => ∃ piece later, pieces = piece :: later ∧ piece <+: total ∧
      piece.length ≤ len ∧ (piece = [] → total = []) ∧
      Delivers (total.drop piece.length) lens later

theorem readMany_spec {env : Env} (lens : List ℕ) (hlens : ∀ n ∈ lens, 0 < n) {w : World}
    {r : ChunkStreamReader} {rest : Bytes} (h : ReaderAt w.store r rest) :
    wp (r.readMany env lens)
      (fun pieces w' => w'.store = w.store ∧ w'.trace = w.trace ∧ Delivers rest lens pieces)
      (fun _ _ => env.Faulty) w := by
  induction lens generalizing r rest w with
  | nil => exact ⟨rfl, rfl, rfl⟩
  | cons len lens ih =>
    unfold readMany
    simp only [wp_bind, wp_pure]
    refine wp_mono_ok (readLoop_spec (hlens len (by simp)) _ h le_rfl) ?_
    rintro ⟨piece, r'⟩ w' ⟨hs, ht, hpre, hle, hend, hat⟩
    refine wp_mono_ok (ih (fun n hn => hlens n (List.mem_cons_of_mem _ hn)) hat) ?_
    rintro pieces w'' ⟨hs', ht', hd⟩
    exact ⟨hs'.trans hs, ht'.trans ht, piece, pieces, rfl, hpre, hle, hend, hd⟩

/-- A new reader has everything still to deliver that the stored parts stand for. -/
theorem readerAt_new {H : IncrementalHash} {store : Store} {volume : String}
    (archive : VolumeArchive) {parts : Parts} (hchunks : archive.chunks = parts.map Prod.fst)
    (h : Stored H store volume archive.raw parts) :
    ReaderAt store (ChunkStreamReader.new volume archive) (parts.map Prod.snd).flatten := by
  refine ⟨parts.map Prod.snd, ?_, by simp [ChunkStreamReader.new, cursorRest]⟩
  simp only [ChunkStreamReader.new, hchunks, List.drop_zero, List.map_map,
    List.forall₂_map_left_iff, List.forall₂_map_right_iff, Function.comp_apply]
  exact List.forall₂_same.mpr h.files

end ChunkStreamReader

/-! ## The round trip -/

/-- Chunk reading undoes chunk writing. -/
theorem chunk_round_trip (H : IncrementalHash) {writeEnv : Env} (readEnv : Env)
    (hread : ∀ n, readEnv.fault n = none) (backend : BackendSpec) (volume : String)
    (snap : Timestamp) (parent : Option String) (maxChunkBytes : ℕ)
    (bufs : List Bytes) {w w' : World} {chunks : List ChunkFilename}
    (hwrite : outcome (((ChunkedWriter.new H backend volume snap.raw maxChunkBytes).writeBuffers
      writeEnv bufs) >>= fun cw => cw.finish writeEnv) w = (.ok chunks, w')) :
    (chunks.map (·.filename)).Nodup ∧
    (∀ c ∈ chunks, ∃ bytes,
      HasPart w'.store (pathInSnapshot volume snap.raw c.filename) bytes ∧
        c.sha256sum = some (hexOf (H.digest bytes))) ∧
    ∀ lens, (∀ n ∈ lens, 0 < n) →
      wp ((ChunkStreamReader.new volume ⟨snap, parent, chunks⟩).readMany readEnv lens)
        (fun pieces _ => ChunkStreamReader.Delivers bufs.flatten lens pieces)
        (fun _ _ => False) w' := by
  have hbufs : ∀ b ∈ bufs, b.length ≤ bufs.flatten.length := by
    intro b hb
    exact (List.sublist_flatten_of_mem hb).length_le
  have hspec : wp (((ChunkedWriter.new H backend volume snap.raw maxChunkBytes).writeBuffers
      writeEnv bufs) >>= fun cw => cw.finish writeEnv)
      (fun chunks w' => OnlyParts (PartsOf volume snap.raw) w w' ∧
        ∃ parts, chunks = parts.map Prod.fst ∧ Stored H w'.store volume snap.raw parts ∧
          (∀ p ∈ parts, p.2.length < max maxChunkBytes 1 + bufs.flatten.length) ∧
          (parts.map Prod.snd).flatten = bufs.flatten)
      (fun _ _ => True) w := by
    rw [wp_bind]
    have hnew := writerAt_new H backend volume snap.raw maxChunkBytes bufs.flatten.length w.store
    refine wp_mono (hnew.writeBuffers_spec (OnlyParts.refl w) hbufs) ?_ (fun _ _ _ => trivial)
    rintro cw w₁ ⟨hf, parts, cur, hat, hc⟩
    refine wp_mono (hat.finish_spec hf) ?_ (fun _ _ _ => trivial)
    rintro chunks w₂ ⟨hf₂, parts', hchunks, hstored, hshort, hflat, -⟩
    exact ⟨hf₂, parts', hchunks, hstored, hshort, by rw [hflat, hc]; simp [content]⟩
  obtain ⟨-, parts, rfl, hstored, -, hflat⟩ := wp_ok hspec hwrite
  refine ⟨by rw [List.map_map]; exact hstored.nodup, ?_, ?_⟩
  · intro c hc
    obtain ⟨p, hp, rfl⟩ := List.mem_map.mp hc
    exact ⟨p.2, hstored.files p hp, (hstored.describes p hp).sha256sum⟩
  · intro lens hlens
    have hat := ChunkStreamReader.readerAt_new ⟨snap, parent, parts.map Prod.fst⟩ rfl hstored
    rw [hflat] at hat
    refine wp_mono (ChunkStreamReader.readMany_spec lens hlens hat) ?_ ?_
    · exact fun pieces _ h => h.2.2
    · rintro _ _ ⟨n, e, he⟩
      exact absurd he (by simp [hread n])

/-- Five bytes in three buffers, one of them empty, with at most two bytes to a chunk. -/
theorem chunk_round_trip_small :
    ∃ chunks w', outcome (((ChunkedWriter.new IncrementalHash.keepAll .objectStorage "root"
        "20230101" 2).writeBuffers Env.calm [[1, 2, 3], [], [4, 5]]) >>=
        fun cw => cw.finish Env.calm) (World.start fun _ => none) = (.ok chunks, w') ∧
      (chunks.map (·.filename)).Nodup ∧
      (∀ c ∈ chunks, ∃ bytes,
        HasPart w'.store (pathInSnapshot "root" "20230101" c.filename) bytes ∧
          c.sha256sum = some (hexOf (IncrementalHash.keepAll.digest bytes))) ∧
      ∀ lens, (∀ n ∈ lens, 0 < n) →
        wp ((ChunkStreamReader.new "root" ⟨.plain "20230101", none, chunks⟩).readMany Env.calm
          lens)
          (fun pieces _ => ChunkStreamReader.Delivers [1, 2, 3, 4, 5] lens pieces)
          (fun _ _ => False) w' := by
  obtain ⟨chunks, w', h⟩ := exists_of_isOk (x :=
    (((ChunkedWriter.new IncrementalHash.keepAll .objectStorage "root" "20230101" 2).writeBuffers
      Env.calm [[1, 2, 3], [], [4, 5]]) >>= fun cw => cw.finish Env.calm))
    (s := World.start fun _ => none) (by decide +kernel)
  exact ⟨chunks, w', h, chunk_round_trip IncrementalHash.keepAll Env.calm (fun _ => rfl)
    .objectStorage "root" (.plain "20230101") none 2 _ h⟩

end Bbkar
