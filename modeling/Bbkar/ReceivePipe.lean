import Bbkar.SendIterator
import Bbkar.RestoreRun

/-!
# From `btrfs send` to `btrfs receive`

Translation of the part of `restore_archive` that feeds the process: `io::copy` reads from
the decoder into its buffer and writes all of it to the pipe. A process that has closed its
input breaks the pipe, which is no error, and its exit decides. Its error output is read only
after the copying, so a process that fills that pipe before reads no more. Buffers are cut at
many places between the two processes, and none of the cuts shows.
-/
namespace Bbkar
open Codec Effects SendReceive Function

/-! ## A process that reads its input -/

/-- What a receiving process is, from the root it starts on to its exit. It reads byte by
byte, and closes its input when it wants no more. `said` is how much it has written to its
error output before it reads on. It finishes with nothing on success, and otherwise with its
exit code and its trimmed error output. When it is cut off, what is left on the root is up to
it. -/
structure ReceiveProcess (C σ : Type) where
  start : Root String C → σ
  eat : σ → UInt8 → σ
  closed : σ → Bool
  said : σ → ℕ
  said_le_eat : ∀ s b, said s ≤ said (eat s b)
  finish : σ → Option (ℤ × String) × Root String C
  interrupt : Root String C → Root String C

namespace ReceiveProcess

variable {C σ : Type} (P : ReceiveProcess C σ)

/-- The process reads what it wants. -/
def feed (s : σ) (bytes : Bytes) : σ :=
  bytes.foldl (fun s b => if P.closed s then s else P.eat s b) s

@[simp] theorem feed_nil (s : σ) : P.feed s [] = s := rfl

theorem feed_append (s : σ) (a b : Bytes) : P.feed s (a ++ b) = P.feed (P.feed s a) b :=
  List.foldl_append

/-- After it has closed its input it does not change any more. -/
theorem feed_closed {s : σ} (h : P.closed s = true) (bytes : Bytes) : P.feed s bytes = s := by
  induction bytes with
  | nil => rfl
  | cons b bytes ih =>
    rw [feed, List.foldl_cons, if_pos h]
    exact ih

theorem said_le_feed (s : σ) (bytes : Bytes) : P.said s ≤ P.said (P.feed s bytes) := by
  induction bytes generalizing s with
  | nil => exact le_rfl
  | cons b bytes ih =>
    rw [feed, List.foldl_cons]
    split_ifs
    · exact ih s
    · exact (P.said_le_eat s b).trans (ih _)

/-- The error output that the process writes before it has read all it wants of a stream fits
its pipe, so the process never waits for somebody to read it. -/
def NeverBlocks (capacity : ℕ) (root : Root String C) (data : Bytes) : Prop :=
  P.said (P.feed (P.start root) data) ≤ capacity

/-- What the process makes of a whole stream. -/
def receive (root : Root String C) (data : Bytes) : Option (ℤ × String) × Root String C :=
  P.finish (P.feed (P.start root) data)

end ReceiveProcess

/-! ## Feeding it -/

section Copy

variable {C σ : Type} (P : ReceiveProcess C σ) (env : Env) (capacity : ℕ)
  (lags stalls : ℕ → Bool)

/-- The buffer of `io::copy`. -/
def copyBufSize : ℕ := 8 * 1024

/-- `write_all` on the pipe. A process that waits for its error output to be read takes what
the pipe has room for, and then a write stalls. A write to a process that has closed its input
breaks the pipe, unless the process lags behind and has yet to come to that point. The flag
says whether the pipe is broken. The fuel is the length of the buffer. -/
def writePipe : ℕ → σ → Bytes → Act (Bool × σ)
  | fuel, s, buf =>
    if buf = [] then return (false, s)
    else do
      let n ← call env
      if capacity < P.said s ∧ stalls n then throw .diverges
      else if P.said s ≤ capacity ∧ P.closed s ∧ ¬ lags n then return (true, s)
      else
        let written := ChunkOutput.accepted env n buf
        match fuel with
        | 0 => throw .diverges
        | fuel + 1 => writePipe fuel (P.feed s (buf.take written)) (buf.drop written)

/-- `io::copy` from the decoder, which gives `data` and then ends or fails, and fills as much
of the buffer as it likes. A broken pipe ends it. The fuel is the length of the data. -/
def copyPipe (failure : Option Halt) : ℕ → σ → Bytes → Act σ
  | fuel, s, data => do
    let len ← ask fun n => max 1 (min (env.accept n) copyBufSize)
    let piece := data.take len
    if piece = [] then
      match failure with
      | some h => throw h
      | none => return s
    else do
      let (broken, s) ← writePipe P env capacity lags stalls piece.length s piece
      if broken then return s
      else
        match fuel with
        | 0 => throw .diverges
        | fuel + 1 => copyPipe failure fuel s (data.drop len)

variable {P env capacity lags stalls}

/-- A pipe that breaks, breaks when the process wants nothing of the rest. -/
theorem writePipe_spec {fuel : ℕ} {s : σ} {buf : Bytes} (hfuel : buf.length ≤ fuel) {w : World} :
    wp (writePipe P env capacity lags stalls fuel s buf)
      (fun r w' => w'.store = w.store ∧ r.2 = P.feed s buf ∧
        (r.1 = true → P.closed r.2 = true))
      (fun _ w' => w'.store = w.store ∧ (env.Faulty ∨ capacity < P.said (P.feed s buf))) w := by
  induction fuel generalizing s buf w with
  | zero =>
    obtain rfl := List.length_eq_zero_iff.mp (Nat.le_zero.mp hfuel)
    unfold writePipe
    rw [if_pos rfl]
    exact ⟨rfl, rfl, by simp⟩
  | succ fuel ih =>
    unfold writePipe
    split_ifs with hbuf
    · rw [hbuf]
      exact ⟨rfl, rfl, by simp⟩
    · simp only [wp_bind, wp_call]
      refine ⟨fun _ => ?_, fun h hh => ⟨rfl, Or.inl ⟨_, h, hh⟩⟩⟩
      have hpos := List.length_pos_iff.mpr hbuf
      have hsome : 0 < ChunkOutput.accepted env w.calls buf := by
        unfold ChunkOutput.accepted
        omega
      split_ifs with hstalled hbroken
      · exact ⟨rfl, Or.inr (hstalled.1.trans_le (P.said_le_feed s buf))⟩
      · exact ⟨rfl, (P.feed_closed hbroken.2.1 buf).symm, fun _ => hbroken.2.1⟩
      · have hsplit : P.feed s buf =
            P.feed (P.feed s (buf.take (ChunkOutput.accepted env w.calls buf)))
              (buf.drop (ChunkOutput.accepted env w.calls buf)) := by
          rw [← P.feed_append, List.take_append_drop]
        rw [hsplit]
        exact ih (w := w.tick) (by rw [List.length_drop]; omega)

/-- Copying feeds all of the data, as far as the process wants it. Where the decoder fails
and the copying does not, the process has closed its input. -/
theorem copyPipe_spec {failure : Option Halt} {fuel : ℕ} {s : σ} {data : Bytes}
    (hfuel : data.length ≤ fuel) {w : World} :
    wp (copyPipe P env capacity lags stalls failure fuel s data)
      (fun s' w' => w'.store = w.store ∧ s' = P.feed s data ∧
        (failure ≠ none → P.closed s' = true))
      (fun _ _ => env.Faulty ∨ failure ≠ none ∨ capacity < P.said (P.feed s data)) w := by
  induction fuel generalizing s data w with
  | zero =>
    obtain rfl := List.length_eq_zero_iff.mp (Nat.le_zero.mp hfuel)
    unfold copyPipe
    simp only [wp_bind, wp_ask, List.take_nil, if_true]
    cases failure with
    | none => exact ⟨rfl, rfl, fun h => (h rfl).elim⟩
    | some h => exact Or.inr (Or.inl (by simp))
  | succ fuel ih =>
    unfold copyPipe
    simp only [wp_bind, wp_ask]
    generalize hlen : max 1 (min (env.accept w.calls) copyBufSize) = len
    have hpos : 0 < len := by omega
    split_ifs with hpiece
    · obtain rfl : data = [] := by
        rcases List.take_eq_nil_iff.mp hpiece with h | h
        · omega
        · exact h
      cases failure with
      | none => exact ⟨rfl, rfl, fun h => (h rfl).elim⟩
      | some h => exact Or.inr (Or.inl (by simp))
    · rw [wp_bind]
      have hsplit : P.feed s data = P.feed (P.feed s (data.take len)) (data.drop len) := by
        rw [← P.feed_append, List.take_append_drop]
      have hlater (h : capacity < P.said (P.feed s (data.take len))) :
          capacity < P.said (P.feed s data) := by
        rw [hsplit]
        exact h.trans_le (P.said_le_feed _ _)
      refine wp_mono (writePipe_spec (w := w.tick) le_rfl) ?_
        fun _ _ h => h.2.imp id fun hfull => Or.inr (hlater hfull)
      rintro ⟨broken, s'⟩ w' ⟨hstore, rfl, hclosed⟩
      split_ifs with hbroken
      · rw [wp_pure, hsplit, P.feed_closed (hclosed hbroken)]
        exact ⟨hstore, rfl, fun _ => hclosed hbroken⟩
      · rw [List.take_eq_nil_iff, not_or] at hpiece
        have hdata := List.length_pos_iff.mpr hpiece.2
        rw [hsplit]
        refine wp_mono_ok (ih (w := w') (by rw [List.length_drop]; omega)) ?_
        rintro _ w'' ⟨hstore', rfl, hend⟩
        exact ⟨hstore'.trans hstore, rfl, hend⟩

end Copy

/-! ## The restore of one archive -/

section Piped

variable {C σ : Type} (Z : StreamCodec) (P : ReceiveProcess C σ) (env : Env) (capacity : ℕ)
  (lags stalls : ℕ → Bool)

/-- What the decoder gives, and the error it ends with. It works while it reads, so that some
of the data comes before the error. How much is up to it. -/
def decodeArchive (early : ℕ → Bytes) (volume : String) (archive : VolumeArchive) :
    Act (Bytes × Option Halt) :=
  ExceptT.mk fun w =>
    match outcome (readArchive Z env volume archive) w with
    | (.ok data, w') => (.ok (data, none), w')
    | (.error h, w') => (.ok (early w.calls, some h), w')

/-- `restore_archive` with the pipe in it. -/
def restoreArchivePiped (early : ℕ → Bytes) (volume : String) (step : RestoreStep)
    (archive : VolumeArchive) : RestoreAct C Unit := do
  modify fun st => { st with receives := (step, st.root) :: st.receives }
  let _ ← onWorld (call env)
  let (data, failure) ← onWorld (decodeArchive Z env early volume archive)
  let st ← get
  let s ← afterError
    (onWorld (copyPipe P env capacity lags stalls failure data.length (P.start st.root) data))
    fun st => { st with root := P.interrupt st.root }
  let (failed, root) := P.finish s
  modify fun st => { st with root := root }
  let _ ← onWorld (call env)
  match failed with
  | none => return
  | some (code, stderr) => throw (.err (.execution
      ("btrfs receive failed (exit " ++ toString code ++ "): " ++ stderr)))

variable {Z P env capacity lags stalls}

theorem decodeArchive_spec {H : IncrementalHash} {early : ℕ → Bytes} {volume : String}
    {archive : VolumeArchive} {parts : Parts} {data : Bytes} {w : World}
    (hchunks : archive.chunks = parts.map Prod.fst)
    (hstored : Stored H w.store volume archive.raw parts)
    (hdata : Z.decompress (parts.map Prod.snd).flatten = some data) :
    wp (decodeArchive Z env early volume archive)
      (fun r _ => r = (data, none) ∨ env.Faulty ∧ r.2 ≠ none ∧ r.1 = early w.calls)
      (fun _ _ => False) w := by
  have hrun : outcome (decodeArchive Z env early volume archive) w =
      match outcome (readArchive Z env volume archive) w with
      | (.ok data, w') => (.ok (data, none), w')
      | (.error h, w') => (.ok (early w.calls, some h), w') := rfl
  have h : wp (readArchive Z env volume archive)
      (fun bytes w' => w'.store = w.store ∧ bytes = data) (fun _ _ => env.Faulty) w :=
    readArchive_spec hchunks hstored hdata
  unfold wp at h ⊢
  rw [hrun]
  generalize outcome (readArchive Z env volume archive) w = r at h ⊢
  rcases r with ⟨e | bytes, w'⟩
  · exact Or.inr ⟨h, by simp, rfl⟩
  · exact Or.inl (congrArg (·, none) h.2)

/-- Copying what the decoder gives is feeding the whole stream, or fails, or stalls. -/
theorem restoreArchivePiped_spec {H : IncrementalHash} {early : ℕ → Bytes} {volume : String}
    {step : RestoreStep} {archive : VolumeArchive} {parts : Parts} {data : Bytes}
    {st : Restoring C} (hchunks : archive.chunks = parts.map Prod.fst)
    (hstored : Stored H st.world.store volume archive.raw parts)
    (hdata : Z.decompress (parts.map Prod.snd).flatten = some data)
    (hearly : ∀ n, early n <+: data) :
    wp (restoreArchivePiped Z P env capacity lags stalls early volume step archive)
      (fun _ st' => P.receive st.root data = (none, st'.root))
      (fun e st' => env.Faulty ∨ ¬ P.NeverBlocks capacity st.root data ∨ ∃ code stderr,
        P.receive st.root data = (some (code, stderr), st'.root) ∧ e = .err (.execution
          ("btrfs receive failed (exit " ++ toString code ++ "): " ++ stderr))) st := by
  unfold restoreArchivePiped onWorld
  simp only [wp_bind, wp_modify, wp_zoom, wp_call, wp_afterError, wp_get]
  refine ⟨fun _ => ?_, fun h hh => Or.inl ⟨_, h, hh⟩⟩
  refine wp_mono (decodeArchive_spec (w := st.world.tick) hchunks hstored hdata) ?_
    (fun _ _ h => h.elim)
  rintro ⟨given, failure⟩ w' hgiven
  refine wp_mono (copyPipe_spec le_rfl) ?_ ?_
  · rintro _ w'' ⟨-, rfl, hclosed⟩
    -- a decoder that fails late has given all that the process wants
    have hall : P.feed (P.start st.root) given = P.feed (P.start st.root) data := by
      rcases hgiven with hgiven | ⟨-, hfailed, hgiven⟩
      · rw [(Prod.mk.inj hgiven).1]
      · obtain ⟨rest, hrest⟩ := hearly st.world.tick.calls
        rw [← hrest, P.feed_append, ← hgiven, P.feed_closed (hclosed hfailed)]
    refine ⟨fun _ => ?_, fun h hh => Or.inl ⟨_, h, hh⟩⟩
    rw [hall]
    split
    · next hnone => exact Prod.ext hnone rfl
    · next code stderr hsome =>
      exact Or.inr (Or.inr ⟨code, stderr, Prod.ext hsome rfl, rfl⟩)
  · rintro e w'' (hfault | hfailed | hfull)
    · exact Or.inl hfault
    · rcases hgiven with hgiven | ⟨hfault, -, -⟩
      · exact (hfailed (Prod.mk.inj hgiven).2).elim
      · exact Or.inl hfault
    · -- a part of the stream does not make the process say more than the whole
      refine Or.inr (Or.inl (Nat.not_le_of_lt (hfull.trans_le ?_)))
      rcases hgiven with hgiven | ⟨-, -, hgiven⟩
      · rw [(Prod.mk.inj hgiven).1]
      · obtain ⟨rest, hrest⟩ := hearly st.world.tick.calls
        dsimp only at hgiven
        rw [← hrest, P.feed_append, ← hgiven]
        exact P.said_le_feed _ _

/-- `write_subvolume` on the stream of a process. Where that stream never ends, neither does
the loop over it. -/
def writeSubvolumeOf (H : IncrementalHash) (E : StreamEncoder) (env : Env)
    (backend : BackendSpec) (volume snapshot : String) (maxChunkSizeMib capacity : ℕ)
    (started : Except BbkarError SendProcess) : Act (List ChunkFilename × TransferStats) := do
  let stream ← liftExcept (startedStream capacity started)
  writeSubvolume H E env backend volume snapshot maxChunkSizeMib stream

/-- What `btrfs send` writes is what `btrfs receive` reads. When writing a subvolume returns,
the sending process was started, it never waited for its error output to be read, none of its
reads failed and it was waited for. A restore of the chunks from any store that has the parts
then ends as if the receiving process had read all bytes that were sent, up to where it wants
no more: the root is what it makes of them, and its failure is the failure of the restore.
Anything else takes a call that fails while restoring, or a receiving process that waits for
its error output to be read. -/
theorem pipe_roundTrip (H : IncrementalHash) (Z : StreamCodec) (P : ReceiveProcess C σ)
    (sendEnv receiveEnv : Env) (capacity : ℕ) (lags stalls : ℕ → Bool) (backend : BackendSpec)
    (v s : String) (maxMib : ℕ) (started : Except BbkarError SendProcess) (w : World) :
    wp (writeSubvolumeOf H Z.toStreamEncoder sendEnv backend v s maxMib capacity started)
      (fun out w' => ∃ child code, started = .ok child ∧ child.NeverBlocks capacity ∧
        SendProcess.readError child.outputs = none ∧ child.exit = .ok code ∧
        ∀ (archive : VolumeArchive) (step : RestoreStep) (early : ℕ → Bytes) (st : Restoring C),
          archive.raw = s → archive.chunks = out.1 →
          (∀ key, PartsOf v s key → st.world.store key = w'.store key) →
          (∀ n, early n <+: SendProcess.delivered child.outputs) →
          wp (restoreArchivePiped Z P receiveEnv capacity lags stalls early v step archive)
            (fun _ st' =>
              P.receive st.root (SendProcess.delivered child.outputs) = (none, st'.root))
            (fun e st' => receiveEnv.Faulty ∨
              ¬ P.NeverBlocks capacity st.root (SendProcess.delivered child.outputs) ∨
              ∃ code stderr, P.receive st.root (SendProcess.delivered child.outputs) =
                (some (code, stderr), st'.root) ∧ e = .err (.execution
                ("btrfs receive failed (exit " ++ toString code ++ "): " ++ stderr))) st)
      (fun _ _ => True) w := by
  unfold writeSubvolumeOf
  rw [wp_bind, wp_liftExcept]
  refine ⟨fun stream hstream => ?_, fun _ _ => trivial⟩
  refine wp_mono (writeSubvolume_spec backend maxMib _ w) ?_ fun _ _ _ => trivial
  rintro out w' ⟨-, hclean, parts, hchunks, hstored, hencodes⟩
  cases started with
  | error e =>
    obtain rfl := Except.ok.inj hstream
    exact (hclean e (by simp)).elim
  | ok child =>
    have hchild : child.stream capacity = .ok stream := hstream
    obtain ⟨hreads, code, hexit⟩ := (SendProcess.clean_stream_iff hchild).mp hclean
    refine ⟨child, code, rfl, .of_stream hchild, hreads, hexit, ?_⟩
    rintro archive step early st rfl harchive hstore hearly
    have hdata : Z.decompress (parts.map Prod.snd).flatten =
        some (SendProcess.delivered child.outputs) := by
      rw [hencodes.bytes, Z.decompress_encode, ← SendProcess.stdoutPieces_stream hchild]
    have hhere : Stored H st.world.store v archive.raw parts :=
      hstored.congr fun n _ => hstore _ ⟨n, rfl⟩
    exact restoreArchivePiped_spec (harchive.trans hchunks) hhere hdata hearly

/-- Keeps the bytes it reads under one name, and says a byte for each. -/
def ReceiveProcess.keeping (name : String) : ReceiveProcess Bytes Bytes where
  start := fun _ => []
  eat := fun s b => s ++ [b]
  closed := fun _ => false
  said := List.length
  said_le_eat := by simp
  finish := fun s => (none, Root.empty.put name s)
  interrupt := id

theorem pipe_roundTrip_fourBytes :
    let child : SendProcess :=
      ⟨[.stdout (.ok [1, 2, 3]), .stderr [7, 8], .stdout (.ok [4])], [9], .ok (some 0)⟩
    let receiver := ReceiveProcess.keeping "root.20230101"
    ∃ out w', outcome (writeSubvolumeOf .keepAll StreamCodec.bytewise.toStreamEncoder Env.calm
        .localDir "root" "20230101" 1 4 (.ok child)) (World.start fun _ => none) =
        (.ok out, w') ∧
      ∃ st', outcome (restoreArchivePiped StreamCodec.bytewise receiver Env.calm 4
          (fun _ => false) (fun _ => true) (fun _ => []) "root"
          (.receiveFull (.plain "20230101")) ⟨.plain "20230101", none, out.1⟩)
          ⟨w', Root.empty, []⟩ = (.ok (), st') ∧
        st'.root.lookup "root.20230101" = some [1, 2, 3, 4] := by
  intro child receiver
  obtain ⟨out, w', hwrite⟩ := exists_of_isOk (x := writeSubvolumeOf .keepAll
    StreamCodec.bytewise.toStreamEncoder Env.calm .localDir "root" "20230101" 1 4 (.ok child))
    (s := World.start fun _ => none) (by decide +kernel)
  refine ⟨out, w', hwrite, ?_⟩
  obtain ⟨_, code, ⟨⟩, -, -, -, hrestore⟩ := wp_ok (pipe_roundTrip .keepAll
    StreamCodec.bytewise receiver Env.calm Env.calm 4 (fun _ => false) (fun _ => true)
    .localDir "root" "20230101" 1 (.ok child) (World.start fun _ => none)) hwrite
  have hnoError : ∀ (e : Halt) (st' : Restoring Bytes), (Env.calm.Faulty ∨
      ¬ receiver.NeverBlocks 4 Root.empty [1, 2, 3, 4] ∨
      ∃ code stderr, receiver.receive Root.empty [1, 2, 3, 4] =
        (some (code, stderr), st'.root) ∧ e = .err (.execution
        ("btrfs receive failed (exit " ++ toString code ++ "): " ++ stderr))) → False := by
    rintro e st' (⟨n, h, hfault⟩ | hblocks | ⟨code, stderr, hfailed, -⟩)
    · cases hfault
    · exact hblocks (by unfold ReceiveProcess.NeverBlocks; decide)
    · cases (Prod.mk.inj hfailed).1
  obtain ⟨⟨⟩, st', hback, hroot⟩ := exists_of_wp (wp_mono
    (hrestore ⟨.plain "20230101", none, out.1⟩ (.receiveFull (.plain "20230101")) (fun _ => [])
      ⟨w', Root.empty, []⟩ rfl rfl (fun _ _ => rfl) (fun _ => List.nil_prefix))
    (fun _ _ h => h) hnoError)
  exact ⟨st', hback, by rw [← (Prod.mk.inj hroot).2]; rfl⟩

end Piped

end Bbkar
