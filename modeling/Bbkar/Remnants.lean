import Bbkar.TouchedParts
import Bbkar.VisitedVolumes
import Bbkar.History
import Bbkar.LocalMeta

/-!
# What failed writes leave behind

Every object on a destination is metadata, a chunk file that metadata lists, or a part file
of a snapshot of which some write was begun and never recorded. Beside the objects there may
be the temporary file of metadata that could not be written. So runs that return leave
nothing on the destination that its metadata does not account for.
-/
namespace Bbkar
open Codec Effects Function

/-! ## Writes and records -/

/-- The write of a snapshot begins. -/
def Entry.begins (v s : String) (e : Entry) : Bool :=
  match e.event with
  | .writeSubvolume v' s' _ => decide (v' = v ∧ s' = s)
  | _ => false

/-- The metadata of the volume lists the snapshot from here on. -/
def Entry.records (v s : String) (e : Entry) : Bool :=
  decide (s ∈ raws (destStateOn e.after v).archives ∧
    s ∉ raws (destStateOn e.before v).archives)

/-- More writes of the snapshot have begun than have been recorded. -/
def Unfinished (v s : String) (trace : List Entry) : Prop :=
  trace.countP (Entry.records v s) < trace.countP (Entry.begins v s)

/-- A write of the volume's metadata fails. -/
def Entry.fails (v : String) (e : Entry) : Bool :=
  match e.event with
  | .writeMetadata v' _ returned => decide (v' = v ∧ returned = false)
  | _ => false

/-- The metadata on the store lists a chunk with this number. -/
def Listed (store : Store) (v s : String) (n : ℕ) : Prop :=
  ∃ a ∈ (destStateOn store v).archives, a.raw = s ∧ partFilename n ∈ a.chunks.map (·.filename)

theorem destStateOn_congr {store store' : Store} {v : String}
    (h : store' (metaKey v) = store (metaKey v)) : destStateOn store' v = destStateOn store v := by
  unfold destStateOn
  rw [h]

theorem records_of_same {v s : String} {e : Entry}
    (h : e.after (metaKey v) = e.before (metaKey v)) : e.records v s = false := by
  unfold Entry.records
  rw [destStateOn_congr h]
  simp

/-- Every object is accounted for, as far as its writes are finished. -/
structure Accounted (store : Store) (trace : List Entry) : Prop where
  keys : ∀ key, store key ≠ none → ∃ v, SlashFree v ∧
    (key = metaKey v ∨ ∃ s n, SlashFree s ∧ key = partKey v s n)
  counts : ∀ v s, SlashFree v →
    trace.countP (Entry.records v s) ≤ trace.countP (Entry.begins v s)
  parts : ∀ v s, SlashFree v → SlashFree s → ¬ Unfinished v s trace →
    ∀ n, store (partKey v s n) ≠ none → Listed store v s n

/-- Only the counts of a record matter. -/
theorem Accounted.congr {store : Store} {trace trace' : List Entry} (h : Accounted store trace)
    (hrecords : ∀ v s, SlashFree v →
      trace'.countP (Entry.records v s) = trace.countP (Entry.records v s))
    (hbegins : ∀ v s, trace'.countP (Entry.begins v s) = trace.countP (Entry.begins v s)) :
    Accounted store trace' := by
  refine ⟨h.keys, fun v s hv => ?_, fun v s hv hs hfinished => ?_⟩
  · rw [hrecords v s hv, hbegins]
    exact h.counts v s hv
  · rw [Unfinished, hrecords v s hv, hbegins] at hfinished
    exact h.parts v s hv hs hfinished

section Steps

variable {H : IncrementalHash} {Z : StreamEncoder} {env : Env} {ctx : VolumeContext}
  {step : RunStep} {stream : SendStream} {w w₁ w' : World}

/-- While a snapshot is sent nothing is recorded. -/
theorem Sending.counts (hs : Sending env ctx step stream w w₁) (v s : String) :
    w₁.trace.countP (Entry.records v s) = w.trace.countP (Entry.records v s) ∧
      w₁.trace.countP (Entry.begins v s) = w.trace.countP (Entry.begins v s) +
        if ctx.volume = v ∧ step.snap.raw = s then 1 else 0 := by
  obtain ⟨new, htrace, hnew⟩ := hs.frame.trace
  have hmeta : ∀ store, DiffersAt (PartsOf ctx.volume step.snap.raw)
      (w.sending ctx.volume step.snap.raw stream).store store →
      store (metaKey v) = w.store (metaKey v) :=
    fun store hd => hd.outside _ (metaKey_not_part _ _ _)
  have hrecords : new.countP (Entry.records v s) = 0 := by
    apply List.countP_eq_zero.mpr
    intro e he
    obtain ⟨-, hbefore, hafter⟩ := hnew e he
    rw [records_of_same ((hmeta _ hafter).trans (hmeta _ hbefore).symm)]
    simp
  have hbegins : new.countP (Entry.begins v s) = 0 := by
    apply List.countP_eq_zero.mpr
    intro e he
    obtain ⟨⟨key, -, hevent⟩, -, -⟩ := hnew e he
    simp [Entry.begins, hevent]
  have hfirst : Entry.records v s ⟨.writeSubvolume ctx.volume step.snap.raw stream, w.store,
      w.store⟩ = false := records_of_same rfl
  rw [htrace, World.sending, World.log_trace, List.countP_append, List.countP_append, hrecords,
    hbegins, List.countP_cons, List.countP_cons, hfirst]
  simp [Entry.begins]

theorem Sending.fails (hs : Sending env ctx step stream w w₁) (v : String) :
    w₁.trace.countP (Entry.fails v) = w.trace.countP (Entry.fails v) := by
  obtain ⟨new, htrace, hnew⟩ := hs.frame.trace
  have hnone : new.countP (Entry.fails v) = 0 := by
    apply List.countP_eq_zero.mpr
    intro e he
    obtain ⟨⟨key, -, hevent⟩, -, -⟩ := hnew e he
    simp [Entry.fails, hevent]
  rw [htrace, List.countP_append, hnone, Nat.zero_add]
  exact List.countP_cons_of_neg (by simp [Entry.fails])

theorem Sending.metadata (hs : Sending env ctx step stream w w₁) (v : String) :
    w₁.store (metaKey v) = w.store (metaKey v) :=
  hs.frame.store.outside _ (metaKey_not_part _ _ _)

/-- Part files of other snapshots stay while one is sent. -/
theorem Sending.other (hs : Sending env ctx step stream w w₁) (hctx : SlashFree ctx.volume)
    (hsnap : SlashFree step.snap.raw) {v s : String} (hv : SlashFree v) (hs' : SlashFree s)
    (hne : ¬ (ctx.volume = v ∧ step.snap.raw = s)) (n : ℕ) :
    w₁.store (partKey v s n) = w.store (partKey v s n) := by
  apply hs.frame.store.outside
  intro hparts
  exact hne (partsOf_disjoint hctx hv hsnap hs' hparts ⟨n, rfl⟩)

theorem Sending.keys (hs : Sending env ctx step stream w w₁) (hctx : SlashFree ctx.volume)
    (hsnap : SlashFree step.snap.raw) (h : Accounted w.store w.trace) {key : String}
    (hkey : w₁.store key ≠ none) : ∃ v, SlashFree v ∧
      (key = metaKey v ∨ ∃ s n, SlashFree s ∧ key = partKey v s n) := by
  by_cases hparts : PartsOf ctx.volume step.snap.raw key
  · obtain ⟨n, rfl⟩ := hparts
    exact ⟨ctx.volume, hctx, Or.inr ⟨step.snap.raw, n, hsnap, rfl⟩⟩
  · rw [hs.frame.store.outside key hparts] at hkey
    exact h.keys key hkey

/-- A write that has begun is unfinished, so its part files need not be listed. -/
theorem Accounted.sending (h : Accounted w.store w.trace)
    (hs : Sending env ctx step stream w w₁) (hctx : SlashFree ctx.volume)
    (hsnap : SlashFree step.snap.raw) : Accounted w₁.store w₁.trace := by
  refine ⟨fun key => hs.keys hctx hsnap h, fun v s hv => ?_, fun v s hv hs' hfinished n hn => ?_⟩
  · rw [(hs.counts v s).1, (hs.counts v s).2]
    exact Nat.le_add_right_of_le (h.counts v s hv)
  · rw [Unfinished, (hs.counts v s).1, (hs.counts v s).2] at hfinished
    by_cases hsame : ctx.volume = v ∧ step.snap.raw = s
    · rw [if_pos hsame] at hfinished
      exact absurd (Nat.lt_succ_of_le (h.counts v s hv)) hfinished
    · rw [if_neg hsame, Nat.add_zero] at hfinished
      rw [hs.other hctx hsnap hv hs' hsame] at hn
      unfold Listed
      rw [destStateOn_congr (hs.metadata v)]
      exact h.parts v s hv hs' hfinished n hn

/-! ## Metadata that follows -/

variable {m : DestMeta} {chunks : List ChunkFilename} {now : ℕ}

theorem Link.of_sending (hs : Sending env ctx step stream w w₁)
    (hl : Link ctx.volume m w.store) : Link ctx.volume m w₁.store :=
  hl.congr (hs.metadata ctx.volume)

/-- New metadata records the snapshot that was sent, and no other. -/
theorem records_after (hctx : SlashFree ctx.volume) (hl : Link ctx.volume m w₁.store)
    (hfresh : step.snap.raw ∉ raws m.archives) {e : Entry} (hbefore : e.before = w₁.store)
    (hafter : e.after =
      update w₁.store (metaKey ctx.volume) (some (.metadata (m.after step chunks now))))
    {v : String} (hv : SlashFree v) (s : String) :
    e.records v s = decide (ctx.volume = v ∧ step.snap.raw = s) := by
  by_cases hvol : ctx.volume = v
  · subst hvol
    have hnew : (destStateOn e.after ctx.volume).archives = (m.after step chunks now).archives :=
      Link.destStateOn_archives (Or.inl (by rw [hafter]; simp [Persisted]))
    unfold Entry.records
    rw [hnew, hbefore, hl.destStateOn_archives]
    refine decide_eq_decide.mpr ⟨?_, ?_⟩
    · rintro ⟨hmem, hold⟩
      obtain ⟨a, ha, rfl⟩ := mem_raws.mp hmem
      rcases (m.mem_addArchive (step.archive chunks) a).mp ha with rfl | ha
      · exact ⟨rfl, rfl⟩
      · exact absurd (mem_raws.mpr ⟨a, ha, rfl⟩) hold
    · rintro ⟨-, rfl⟩
      refine ⟨mem_raws.mpr ⟨step.archive chunks, ?_, rfl⟩, hfresh⟩
      exact (m.mem_addArchive (step.archive chunks) _).mpr (Or.inl rfl)
  · have hkey : metaKey v ≠ metaKey ctx.volume := fun h => hvol (metaKey_inj hctx hv h.symm)
    rw [records_of_same (by rw [hafter, hbefore, update_of_ne hkey])]
    simp [hvol]

/-- Once the metadata lists the snapshot, its part files are accounted for. -/
theorem Accounted.recorded (h : Accounted w.store w.trace)
    (hs : Sending env ctx step stream w w₁) (hctx : SlashFree ctx.volume)
    (hsnap : SlashFree step.snap.raw) (hl : Link ctx.volume m w.store)
    (hfresh : step.snap.raw ∉ raws m.archives)
    (htouched : TouchedOnly ctx.volume step.snap.raw w.store chunks w₁.store)
    (hstore : w'.store =
      update w₁.store (metaKey ctx.volume) (some (.metadata (m.after step chunks now))))
    {returned : Bool} (htrace : w'.trace =
      ⟨.writeMetadata ctx.volume (m.after step chunks now) returned, w₁.store, w'.store⟩ ::
        w₁.trace) :
    Accounted w'.store w'.trace ∧ ∀ v s, SlashFree v →
      (Unfinished v s w'.trace ↔ Unfinished v s w.trace) := by
  have hrecords : ∀ {v}, SlashFree v → ∀ s, Entry.records v s
      ⟨.writeMetadata ctx.volume (m.after step chunks now) returned, w₁.store, w'.store⟩ =
        decide (ctx.volume = v ∧ step.snap.raw = s) :=
    fun hv s => records_after hctx (hl.of_sending hs) hfresh rfl hstore hv s
  -- both counts grow by one for the snapshot that was sent
  have hcounts : ∀ v s, SlashFree v →
      w'.trace.countP (Entry.records v s) = w.trace.countP (Entry.records v s) +
          (if ctx.volume = v ∧ step.snap.raw = s then 1 else 0) ∧
        w'.trace.countP (Entry.begins v s) = w.trace.countP (Entry.begins v s) +
          if ctx.volume = v ∧ step.snap.raw = s then 1 else 0 := by
    intro v s hv
    obtain ⟨hr, hb⟩ := hs.counts v s
    rw [htrace, List.countP_cons, List.countP_cons, hrecords hv s, hr, hb]
    simp [Entry.begins]
  have hunfinished : ∀ v s, SlashFree v →
      (Unfinished v s w'.trace ↔ Unfinished v s w.trace) := by
    intro v s hv
    rw [Unfinished, Unfinished, (hcounts v s hv).1, (hcounts v s hv).2]
    omega
  have hparts : ∀ {v s : String} (n : ℕ), SlashFree v → SlashFree s →
      w'.store (partKey v s n) = w₁.store (partKey v s n) := by
    intro v s n hv hs'
    rw [hstore, update_of_ne]
    exact fun heq => metaKey_not_partsOf hctx hv hs' ⟨n, heq.symm⟩
  have hnew : (destStateOn w'.store ctx.volume).archives = (m.after step chunks now).archives :=
    Link.destStateOn_archives (Or.inl (by rw [hstore]; simp [Persisted]))
  refine ⟨⟨fun key hkey => ?_, fun v s hv => ?_, fun v s hv hs' hfinished n hn => ?_⟩,
    hunfinished⟩
  · by_cases hmeta : key = metaKey ctx.volume
    · exact ⟨ctx.volume, hctx, Or.inl hmeta⟩
    · rw [hstore, update_of_ne hmeta] at hkey
      exact hs.keys hctx hsnap h hkey
  · rw [(hcounts v s hv).1, (hcounts v s hv).2]
    exact Nat.add_le_add_right (h.counts v s hv) _
  · rw [hunfinished v s hv] at hfinished
    rw [hparts n hv hs'] at hn
    by_cases hsame : ctx.volume = v ∧ step.snap.raw = s
    · obtain ⟨rfl, rfl⟩ := hsame
      by_cases hname : partFilename n ∈ chunks.map (·.filename)
      · refine ⟨step.archive chunks, ?_, rfl, hname⟩
        rw [hnew]
        exact (m.mem_addArchive (step.archive chunks) _).mpr (Or.inl rfl)
      · -- a file that was there before would have been listed before
        have hold : w₁.store (partKey ctx.volume step.snap.raw n) =
            w.store (partKey ctx.volume step.snap.raw n) := by
          apply htouched
          intro k hk heq
          exact hname (partKey_injective _ _ heq ▸ hk)
        rw [hold] at hn
        obtain ⟨a, ha, hraw, -⟩ := h.parts _ _ hv hs' hfinished n hn
        rw [hl.destStateOn_archives] at ha
        exact absurd (mem_raws.mpr ⟨a, ha, hraw⟩) hfresh
    · rw [hs.other hctx hsnap hv hs' hsame] at hn
      obtain ⟨a, ha, hraw, hname⟩ := h.parts v s hv hs' hfinished n hn
      refine ⟨a, ?_, hraw, hname⟩
      by_cases hvol : ctx.volume = v
      · subst hvol
        rw [hl.destStateOn_archives] at ha
        rw [hnew]
        exact (m.mem_addArchive (step.archive chunks) a).mpr (Or.inr ha)
      · have hkey : metaKey v ≠ metaKey ctx.volume :=
          fun heq => hvol (metaKey_inj hctx hv heq.symm)
        have hmeta : w'.store (metaKey v) = w.store (metaKey v) := by
          rw [hstore, update_of_ne hkey, hs.metadata v]
        rwa [destStateOn_congr hmeta]

/-- Metadata that was not replaced records nothing. -/
theorem Accounted.notRecorded {event : Event} (h : Accounted w₁.store w₁.trace)
    (hevent : ∀ v s stream, event ≠ .writeSubvolume v s stream) (hstore : w'.store = w₁.store)
    (htrace : w'.trace = ⟨event, w₁.store, w'.store⟩ :: w₁.trace) :
    Accounted w'.store w'.trace := by
  rw [hstore] at htrace ⊢
  have hbegins : ∀ v s, Entry.begins v s ⟨event, w₁.store, w₁.store⟩ = false := by
    intro v s
    unfold Entry.begins
    cases event with
    | writeSubvolume v' s' stream => exact absurd rfl (hevent v' s' stream)
    | writePart key => rfl
    | writeMetadata v' m' returned => rfl
  refine h.congr (fun v s _ => ?_) (fun v s => ?_)
  · rw [htrace, List.countP_cons, records_of_same rfl]
    simp
  · rw [htrace, List.countP_cons, hbegins]
    simp

theorem Accounted.tried (h : Accounted w.store w.trace)
    (hs : Sending env ctx step stream w w₁) (hctx : SlashFree ctx.volume)
    (hsnap : SlashFree step.snap.raw) (hl : Link ctx.volume m w.store)
    (hfresh : step.snap.raw ∉ raws m.archives)
    (htouched : TouchedOnly ctx.volume step.snap.raw w.store chunks w₁.store)
    (ht : MetaTried ctx.volume (m.after step chunks now) w₁ w') :
    Accounted w'.store w'.trace := by
  obtain ⟨returned, htrace, -⟩ := ht.trace
  rcases ht.store with hstore | hstore
  · exact (h.sending hs hctx hsnap).notRecorded (by simp) hstore htrace
  · exact (h.recorded hs hctx hsnap hl hfresh htouched hstore htrace).1

end Steps

/-! ## Volumes, runs and histories -/

section Runs

variable {H : IncrementalHash} {Z : StreamEncoder} {env : Env} {ctx : VolumeContext}
  {U : String → String → Prop} {F : String → Prop} {w : World}

/-- Some run of the history failed, and `P` relates what it found and what it left. -/
def FailedRun (H : IncrementalHash) (Z : StreamEncoder) (runs : List Invocation) (w : World)
    (P : World → World → Prop) : Prop :=
  ∃ before i after halt, runs = before ++ i :: after ∧
    (outcome (i.run H Z) (history H Z before w)).1 = .error halt ∧
    P (history H Z before w) (history H Z (before ++ [i]) w)

theorem FailedRun.append {runs : List Invocation} {P : World → World → Prop}
    (h : FailedRun H Z runs w P) (more : List Invocation) : FailedRun H Z (runs ++ more) w P := by
  obtain ⟨before, i, after, halt, rfl, hhalt, hp⟩ := h
  exact ⟨before, i, after ++ more, halt, by simp, hhalt, hp⟩

end Runs

end Bbkar
