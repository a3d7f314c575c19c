import Bbkar.History

/-!
# Failed sends

A stream that ends in an `Err` item stops the run before metadata is written, so its
snapshot is recorded by no metadata until it is sent again. A non-zero exit status is an
ordinary item instead, which the compression session ignores: the run goes on and records
what it has. Restoring, by contrast, checks the exit status of `btrfs receive`.
-/
namespace Bbkar
open Codec Effects Function

/-- Any bytes, and then an error or a non-zero exit status. -/
def FailedSend (stream : SendStream) : Prop :=
  ∃ sent last, stream = sent ++ [last] ∧
    (∀ item ∈ sent, ∃ data offset, item = .ok (.stdoutBytes data offset)) ∧
    ((∃ e, last = .error e) ∨ ∃ code stderr, last = .ok (.processExit code stderr) ∧ code ≠ 0)

/-- No process exits with a non-zero status: what fails is reported by an `Err` item. -/
def ReportsFailure (stream : SendStream) : Prop :=
  ∀ code stderr, Except.ok (.processExit code stderr) ∈ stream → code = 0

theorem FailedSend.not_clean {stream : SendStream} (h : FailedSend stream)
    (hr : ReportsFailure stream) : ¬ Clean stream := by
  obtain ⟨sent, last, rfl, -, ⟨e, rfl⟩ | ⟨code, stderr, rfl, hcode⟩⟩ := h
  · exact fun hclean => hclean e (by simp)
  · exact absurd (hr code stderr (by simp)) hcode

/-! ## The last write of a snapshot -/

/-- The newest write of the snapshot was given a stream with an `Err` item. -/
def FailedLast (volume snapshot : String) : List Entry → Prop
  | [] => False
  | entry :: entries =>
    match entry.event with
    | .writeSubvolume v s stream =>
      (v = volume ∧ s = snapshot ∧ ¬ Clean stream) ∨
        ((v ≠ volume ∨ s ≠ snapshot) ∧ FailedLast volume snapshot entries)
    | _ => FailedLast volume snapshot entries

theorem failedLast_append {volume snapshot : String} {new old : List Entry}
    (h : ∀ e ∈ new, ∀ stream, e.event ≠ .writeSubvolume volume snapshot stream) :
    FailedLast volume snapshot (new ++ old) ↔ FailedLast volume snapshot old := by
  induction new with
  | nil => rfl
  | cons e new ih =>
    have htail := ih fun e' he' => h e' (List.mem_cons_of_mem _ he')
    rw [List.cons_append, FailedLast]
    split
    · rename_i v s stream hevent
      have hne : ¬ (v = volume ∧ s = snapshot) := by
        rintro ⟨rfl, rfl⟩
        exact h e (by simp) stream hevent
      rw [htail]
      constructor
      · rintro (⟨rfl, rfl, -⟩ | ⟨-, hold⟩)
        · exact absurd ⟨rfl, rfl⟩ hne
        · exact hold
      · intro hold
        rw [not_and_or] at hne
        exact Or.inr ⟨hne, hold⟩
    · exact htail

theorem failedLast_sending {volume snapshot v s : String} {stream : SendStream}
    {new old : List Entry} {before after : Store}
    (hnew : ∀ e ∈ new, ∃ k, e.event = .writePart k) :
    FailedLast volume snapshot (new ++ ⟨.writeSubvolume v s stream, before, after⟩ :: old) ↔
      (v = volume ∧ s = snapshot ∧ ¬ Clean stream) ∨
        ((v ≠ volume ∨ s ≠ snapshot) ∧ FailedLast volume snapshot old) := by
  rw [failedLast_append]
  · rfl
  · intro e he stream'
    obtain ⟨k, hk⟩ := hnew e he
    simp [hk]

/-! ## Metadata never lists a failed send -/

/-- No metadata handed over lists a snapshot whose newest write before it failed. -/
def HandsOverSent : List Entry → Prop
  | [] => True
  | entry :: entries =>
    (∀ v m returned, SlashFree v → entry.event = .writeMetadata v m returned →
      ∀ s ∈ raws m.archives, ¬ FailedLast v s entries) ∧ HandsOverSent entries

theorem handsOverSent_append {new old : List Entry} (h : HandsOverSent old)
    (hnew : ∀ e ∈ new, ∀ v m returned, e.event ≠ .writeMetadata v m returned) :
    HandsOverSent (new ++ old) := by
  induction new with
  | nil => exact h
  | cons e new ih =>
    refine ⟨fun v m returned _ hevent => absurd hevent (hnew e (by simp) v m returned), ?_⟩
    exact ih fun e' he' => hnew e' (List.mem_cons_of_mem _ he')

theorem HandsOverSent.of_append {later entries : List Entry}
    (h : HandsOverSent (later ++ entries)) : HandsOverSent entries := by
  induction later with
  | nil => exact h
  | cons _ _ ih => exact ih h.2

/-- Neither does the metadata on the store. -/
structure NeverFailed (w : World) : Prop where
  store : ∀ v m, SlashFree v → Persisted w.store v m → ∀ s ∈ raws m.archives,
    ¬ FailedLast v s w.trace
  trace : HandsOverSent w.trace

theorem neverFailed_observes : Observes NeverFailed := by
  intro w w' hs ht h
  exact ⟨by rw [hs, ht]; exact h.store, by rw [ht]; exact h.trace⟩

section Steps

variable {H : IncrementalHash} {Z : StreamEncoder} {env : Env} {ctx : VolumeContext}
  {step : RunStep} {stream : SendStream} {w w₁ w' : World}

/-- The record of a write: its start, and part files above. -/
theorem Sending.trace_eq (h : Sending env ctx step stream w w') :
    ∃ new, w'.trace =
        new ++ ⟨.writeSubvolume ctx.volume step.snap.raw stream, w.store, w.store⟩ :: w.trace ∧
      ∀ e ∈ new, ∃ k, e.event = .writePart k := by
  obtain ⟨new, htrace, hnew⟩ := h.frame.trace
  refine ⟨new, htrace, fun e he => ?_⟩
  obtain ⟨⟨k, -, hk⟩, -⟩ := hnew e he
  exact ⟨k, hk⟩

/-- What the linked metadata lists has not failed. -/
theorem NeverFailed.link (h : NeverFailed w) (hv : SlashFree ctx.volume) {m : DestMeta}
    (hl : Link ctx.volume m w.store) : ∀ s ∈ raws m.archives,
      ¬ FailedLast ctx.volume s w.trace := by
  rcases hl with hp | ⟨-, hm⟩
  · exact h.store _ m hv hp
  · simp [hm, raws]

/-- Only metadata of the volume itself could list the snapshot, and it does not yet. -/
theorem NeverFailed.sending (h : NeverFailed w) {m : DestMeta}
    (hl : Link ctx.volume m w.store) (hfresh : step.snap.raw ∉ raws m.archives)
    (hs : Sending env ctx step stream w w') : NeverFailed w' := by
  obtain ⟨new, htrace, hnew⟩ := hs.trace_eq
  refine ⟨?_, ?_⟩
  · intro v m' hvs hp s hmem
    have hp' : Persisted w.store v m' := hs.frame.store.metadata _ _ hp
    rw [htrace, failedLast_sending hnew]
    rintro (⟨rfl, rfl, -⟩ | ⟨-, hold⟩)
    · rcases hl with hl | ⟨hnone, -⟩
      · obtain rfl : m = m' := by
          rw [Persisted] at hl hp'
          simpa using hl.symm.trans hp'
        exact hfresh hmem
      · simp [Persisted, hnone] at hp'
    · exact h.store v m' hvs hp' s hmem hold
  · rw [htrace]
    refine handsOverSent_append (show HandsOverSent (_ :: _) from ⟨by simp, h.trace⟩) ?_
    intro e he v m' returned hevent
    obtain ⟨k, hk⟩ := hnew e he
    simp [hk] at hevent

/-- A snapshot whose stream had no error may be listed from now on. -/
theorem NeverFailed.metaTried (h : NeverFailed w₁) (hv : SlashFree ctx.volume) {m' : DestMeta}
    (hm : ∀ s ∈ raws m'.archives, ¬ FailedLast ctx.volume s w₁.trace)
    (ht : MetaTried ctx.volume m' w₁ w') : NeverFailed w' := by
  obtain ⟨returned, htrace, -⟩ := ht.trace
  have hlast : ∀ v s, FailedLast v s w'.trace ↔ FailedLast v s w₁.trace := by
    intro v s
    rw [htrace, ← List.singleton_append]
    exact failedLast_append (by simp)
  refine ⟨?_, ?_⟩
  · intro v m hvs hp s hmem
    rw [hlast]
    rcases ht.store with hst | hst
    · rw [hst] at hp
      exact h.store v m hvs hp s hmem
    · rw [hst, Persisted] at hp
      by_cases hkey : metaKey v = metaKey ctx.volume
      · obtain rfl := metaKey_inj hvs hv hkey
        rw [update_self] at hp
        obtain rfl : m' = m := by simpa using hp
        exact hm s hmem
      · rw [update_of_ne hkey] at hp
        exact h.store v m hvs hp s hmem
  · rw [htrace]
    refine ⟨?_, h.trace⟩
    intro v m returned' _ hevent s hmem
    obtain ⟨rfl, rfl, -⟩ : ctx.volume = v ∧ m' = m ∧ returned = returned' := by simpa using hevent
    exact hm s hmem

/-- Every write since `start` was given a stream without an `Err` item. -/
def CleanSince (start : World) (w : World) : Prop :=
  ∃ new, w.trace = new ++ start.trace ∧
    ∀ e ∈ new, ∀ v s stream, e.event = .writeSubvolume v s stream → Clean stream

theorem cleanSince_observes (start : World) : Observes (CleanSince start) := by
  intro w w' _ ht h
  rw [CleanSince, ht]
  exact h

theorem keepsSteps_neverFailed (hv : SlashFree ctx.volume) :
    KeepsSteps False H Z env ctx NeverFailed NeverFailed := by
  refine .invariant False.elim (fun m step stream w w' hw hl hf hs => hw.sending hl hf.fresh hs) ?_
  intro m step stream chunks now w w₁ w' hw hl hf hs ht
  refine (hw.sending hl hf.fresh hs.toSending).metaTried hv ?_ ht
  obtain ⟨new, htrace, hnew⟩ := hs.trace_eq
  intro s hmem
  rw [htrace, failedLast_sending hnew]
  rintro (⟨-, rfl, hfailed⟩ | ⟨hne, hold⟩)
  · exact hfailed hs.clean
  · refine hw.link hv hl s ?_ hold
    obtain ⟨a, ha, rfl⟩ := mem_raws.mp hmem
    rcases (DestMeta.mem_addArchive m _ a).mp ha with rfl | ha
    · simp at hne
    · exact mem_raws.mpr ⟨a, ha, rfl⟩

/-- While steps succeed their streams have no `Err` item. -/
theorem keepsSteps_cleanSince (start : World) :
    KeepsSteps False H Z env ctx (CleanSince start) (fun _ => True) := by
  refine ⟨False.elim, fun _ _ => trivial, fun _ _ _ _ _ _ _ _ _ => trivial,
    fun _ _ _ _ _ _ _ _ _ _ _ _ _ => trivial, ?_⟩
  rintro m step stream chunks now w w₁ w' ⟨new, htr, hclean⟩ - - hs ht -
  obtain ⟨parts, htrace, hparts⟩ := hs.trace_eq
  obtain ⟨returned, htried, -⟩ := ht.trace
  refine ⟨⟨.writeMetadata ctx.volume (m.after step chunks now) returned, w₁.store, w'.store⟩ ::
    parts ++ ⟨.writeSubvolume ctx.volume step.snap.raw stream, w.store, w.store⟩ :: new, ?_, ?_⟩
  · rw [htried, htrace, htr]
    simp
  intro e he v s stream' hevent
  rcases List.mem_append.mp he with he | he
  · rcases List.mem_cons.mp he with rfl | he
    · simp at hevent
    · obtain ⟨k, hk⟩ := hparts e he
      simp [hk] at hevent
  · rcases List.mem_cons.mp he with rfl | he
    · obtain ⟨-, -, rfl⟩ : ctx.volume = v ∧ step.snap.raw = s ∧ stream = stream' := by
        simpa using hevent
      exact hs.clean
    · exact hclean e he v s stream' hevent

end Steps

/-! ## Runs -/

/-- A run that returns was given no stream with an `Err` item. -/
theorem run_clean (H : IncrementalHash) (Z : StreamEncoder) (env : Env) (config : Config)
    (name : Option String) (w : World) :
    wp (run H Z env config name) (fun _ w' => CleanSince w w') (fun _ _ => True) w := by
  have hstart : CleanSince w w := ⟨[], rfl, by simp⟩
  refine wp_mono (run_spec (J := fun _ _ => True) (cleanSince_observes w) (fun _ _ => trivial)
    name ?_ hstart) (fun _ _ hq => hq.1) (fun _ _ _ => trivial)
  intro ctx _ w₁ hw₁
  exact wp_mono (runVolume_spec (cleanSince_observes w) (keepsSteps_cleanSince w) hw₁)
    (fun _ _ hq => ⟨hq.1, trivial, fun _ _ => trivial⟩) (fun _ _ _ => trivial)

theorem history_neverFailed (H : IncrementalHash) (Z : StreamEncoder) (runs : List Invocation)
    (store : Store)
    (hnames : ∀ i ∈ runs, ∀ ctx, Visits i.env i.config ctx → SlashFree ctx.volume) :
    NeverFailed (history H Z runs (World.start store)) := by
  refine history_invariant neverFailed_observes runs ?_ ⟨?_, trivial⟩
  · intro i hi ctx hctx
    exact runVolume_preserves neverFailed_observes (keepsSteps_neverFailed (hnames i hi ctx hctx))
  · exact fun _ _ _ _ _ _ h => h

/-- When a failing stream reports its failure by an `Err` item, the run that was given it
returns an error, and no metadata lists the snapshot before it is sent again. -/
theorem failed_send_not_recorded (H : IncrementalHash) (Z : StreamEncoder)
    (runs : List Invocation) (store : Store)
    (hnames : ∀ i ∈ runs, ∀ ctx, Visits i.env i.config ctx → SlashFree ctx.volume)
    (v s : String) (hv : SlashFree v) (stream : SendStream) (hfailed : FailedSend stream)
    (hreports : ReportsFailure stream) :
    (∀ before i after, runs = before ++ i :: after → ∀ w',
      outcome (i.run H Z) (history H Z before (World.start store)) = (.ok (), w') →
        ∀ new, w'.trace = new ++ (history H Z before (World.start store)).trace →
          ∀ e ∈ new, e.event ≠ .writeSubvolume v s stream) ∧
    ∀ later handed mid sent earlier m returned,
      (history H Z runs (World.start store)).trace =
        later ++ handed :: (mid ++ sent :: earlier) →
      handed.event = .writeMetadata v m returned → sent.event = .writeSubvolume v s stream →
      (∀ e ∈ mid, ∀ stream', e.event ≠ .writeSubvolume v s stream') →
      s ∉ raws m.archives := by
  have hclean := hfailed.not_clean hreports
  refine ⟨?_, ?_⟩
  · intro before i after _ w' hok new htrace e he hevent
    obtain ⟨new', htrace', hall⟩ := wp_ok (run_clean H Z i.env i.config i.name _) hok
    obtain rfl : new' = new := List.append_cancel_right (htrace'.symm.trans htrace)
    exact hclean (hall e he v s stream hevent)
  · intro later handed mid sent earlier m returned hsplit hhanded hsent hmid hmem
    have hinv := (history_neverFailed H Z runs store hnames).trace
    rw [hsplit] at hinv
    refine hinv.of_append.1 v m returned hv hhanded s hmem ?_
    rw [failedLast_append hmid, FailedLast, hsent]
    exact Or.inl ⟨rfl, rfl, hclean⟩

/-- One snapshot to send, with the given stream. -/
def oneDay (stream : SendStream) : Invocation where
  env := { Env.calm with
    inspectSource := .ok [("root", ⟨Series.new "root" [.plain "20230101"]⟩)]
    readSubvolumeFull := fun _ _ => stream }
  config := ⟨.localDir, 1, some ⟨"daily", ["*"], ⟨⟨7⟩, none⟩⟩⟩
  name := none

theorem oneDay_visits {stream : SendStream} {ctx : VolumeContext}
    (h : Visits (oneDay stream).env (oneDay stream).config ctx) : SlashFree ctx.volume := by
  obtain ⟨sync, states, -, hstates, hmem, -⟩ := h.visit
  obtain rfl := Except.ok.inj hstates
  rw [(Prod.mk.inj (List.mem_singleton.mp hmem)).1]
  decide

/-- A send that cannot be read to its end. -/
def unreadableSend : SendStream := [.ok (.stdoutBytes [1] 0), .error (.io "Broken pipe")]

theorem failed_send_not_recorded_oneDay :
    (∀ before i after, [oneDay unreadableSend, oneDay unreadableSend] = before ++ i :: after →
      ∀ w', outcome (i.run IncrementalHash.keepAll StreamCodec.identity.toStreamEncoder)
        (history IncrementalHash.keepAll StreamCodec.identity.toStreamEncoder before
          (World.start fun _ => none)) = (.ok (), w') →
        ∀ new, w'.trace = new ++ (history IncrementalHash.keepAll
            StreamCodec.identity.toStreamEncoder before (World.start fun _ => none)).trace →
          ∀ e ∈ new, e.event ≠ .writeSubvolume "root" "20230101" unreadableSend) ∧
    ∀ later handed mid sent earlier m returned,
      (history IncrementalHash.keepAll StreamCodec.identity.toStreamEncoder
        [oneDay unreadableSend, oneDay unreadableSend] (World.start fun _ => none)).trace =
          later ++ handed :: (mid ++ sent :: earlier) →
      handed.event = .writeMetadata "root" m returned →
      sent.event = .writeSubvolume "root" "20230101" unreadableSend →
      (∀ e ∈ mid, ∀ stream', e.event ≠ .writeSubvolume "root" "20230101" stream') →
      "20230101" ∉ raws m.archives := by
  refine failed_send_not_recorded _ _ _ _ ?_ "root" "20230101" (by decide) unreadableSend
    ⟨[.ok (.stdoutBytes [1] 0)], _, rfl, by simp, Or.inl ⟨_, rfl⟩⟩ (by simp [ReportsFailure,
      unreadableSend])
  intro i hi ctx hctx
  obtain rfl : i = oneDay unreadableSend := by simpa using hi
  exact oneDay_visits hctx

/-! ## The exit status -/

/-- A send that exits with status 1 after one byte. -/
def truncatedSend : SendStream :=
  [.ok (.stdoutBytes [1] 0), .ok (.processExit 1 "No space left on device")]

/-- The run returns, and the truncated stream is a recorded archive. -/
theorem nonzero_exit_recorded :
    FailedSend truncatedSend ∧ (oneDay truncatedSend).env.readSubvolumeFull 0 "root.20230101" =
        truncatedSend ∧
      (outcome ((oneDay truncatedSend).run IncrementalHash.keepAll
        StreamCodec.identity.toStreamEncoder) (World.start fun _ => none)).1 = .ok () ∧
      "20230101" ∈ raws (destStateOn (history IncrementalHash.keepAll
        StreamCodec.identity.toStreamEncoder [oneDay truncatedSend]
        (World.start fun _ => none)).store "root").archives := by
  refine ⟨⟨[.ok (.stdoutBytes [1] 0)], _, rfl, by simp, Or.inr ⟨1, _, rfl, by decide⟩⟩, rfl, ?_, ?_⟩
  · decide +kernel
  · decide +kernel

end Bbkar
