import Bbkar.History

/-!
# Crash consistency of the destination

A store is consistent when every chunk file that its metadata lists is there with the
bytes it was recorded with. Writing a snapshot touches only files of a snapshot that is
not listed yet, and metadata that lists it comes after its files. So consistency holds
between any two changes of the store, wherever a run stops, and nothing recorded changes.
-/
namespace Bbkar
open Codec Effects Function

/-! ## Consistent stores -/

/-- The files of a recorded archive are there, and the parts they hold have a property. -/
def Intact (H : IncrementalHash) (P : String → VolumeArchive → Parts → Prop) (store : Store)
    (volume : String) (a : VolumeArchive) : Prop :=
  ∃ parts, a.chunks = parts.map Prod.fst ∧ Stored H store volume a.raw parts ∧ P volume a parts

structure Consistent (H : IncrementalHash) (P : String → VolumeArchive → Parts → Prop)
    (store : Store) : Prop where
  names : ∀ v m, SlashFree v → Persisted store v m → ∀ a ∈ m.archives, SlashFree a.raw
  intact : ∀ v m, SlashFree v → Persisted store v m → ∀ a ∈ m.archives, Intact H P store v a

theorem consistent_empty (H : IncrementalHash)
    (P : String → VolumeArchive → Parts → Prop) : Consistent H P fun _ => none :=
  ⟨by simp [Persisted], by simp [Persisted]⟩

theorem Intact.congr {H : IncrementalHash} {P : String → VolumeArchive → Parts → Prop}
    {store store' : Store} {v : String} {a : VolumeArchive} (h : Intact H P store v a)
    (hsame : ∀ n, store' (partKey v a.raw n) = store (partKey v a.raw n)) :
    Intact H P store' v a := by
  obtain ⟨parts, hparts, hstored, hP⟩ := h
  exact ⟨parts, hparts, hstored.congr fun n _ => hsame n, hP⟩

/-! ## What later stores keep -/

/-- The key of a part file of an archive that the metadata on the store lists. -/
def RecordedKey (store : Store) (key : String) : Prop :=
  ∃ v m a, SlashFree v ∧ Persisted store v m ∧ a ∈ m.archives ∧ PartsOf v a.raw key

/-- The metadata has all archives of an earlier one, and the same first timestamp. -/
structure Grown (m m' : DestMeta) : Prop where
  first : m'.firstSyncTimestamp = m.firstSyncTimestamp
  archives : m.archives.Subperm m'.archives

/-- Nothing recorded on the first store is lost or changed on the second. -/
structure Keeps (store store' : Store) : Prop where
  grown : ∀ v m, SlashFree v → Persisted store v m → ∃ m', Persisted store' v m' ∧ Grown m m'
  files : ∀ key, RecordedKey store key → store' key = store key

theorem Keeps.refl (store : Store) : Keeps store store :=
  ⟨fun _ m _ hp => ⟨m, hp, rfl, .refl _⟩, fun _ _ => rfl⟩

theorem RecordedKey.of_keeps {store store' : Store} {key : String} (h : RecordedKey store key)
    (hk : Keeps store store') : RecordedKey store' key := by
  obtain ⟨v, m, a, hv, hp, ha, hkey⟩ := h
  obtain ⟨m', hp', hgrown⟩ := hk.grown v m hv hp
  exact ⟨v, m', a, hv, hp', hgrown.archives.subset ha, hkey⟩

theorem Keeps.trans {s₁ s₂ s₃ : Store} (h : Keeps s₁ s₂) (h' : Keeps s₂ s₃) : Keeps s₁ s₃ := by
  refine ⟨?_, ?_⟩
  · intro v m hv hp
    obtain ⟨m₂, hp₂, hg₂⟩ := h.grown v m hv hp
    obtain ⟨m₃, hp₃, hg₃⟩ := h'.grown v m₂ hv hp₂
    exact ⟨m₃, hp₃, hg₃.first.trans hg₂.first, hg₂.archives.trans hg₃.archives⟩
  · intro key hkey
    rw [h'.files key (hkey.of_keeps h), h.files key hkey]

/-- Along a record every store keeps what the stores before it had. -/
theorem keeps_of_linked {store : Store} {later : List Entry} {e : Entry} {earlier : List Entry}
    (hlinked : Linked store (later ++ e :: earlier))
    (h : ∀ e ∈ later, Keeps e.before e.after) :
    Keeps e.after store ∧ ∀ e' ∈ later, Keeps e.after e'.before ∧ Keeps e.after e'.after := by
  induction later generalizing store with
  | nil => exact ⟨hlinked.1 ▸ .refl _, by simp⟩
  | cons l later ih =>
    obtain ⟨hafter, hrest⟩ := hlinked
    obtain ⟨hbefore, hlater⟩ := ih hrest fun e' he' => h e' (List.mem_cons_of_mem _ he')
    have hl : Keeps e.after l.after := hbefore.trans (h l (by simp))
    refine ⟨hafter ▸ hl, ?_⟩
    intro e' he'
    rcases List.mem_cons.mp he' with rfl | he'
    · exact ⟨hbefore, hl⟩
    · exact hlater e' he'

/-! ## Writing part files of an unlisted snapshot -/

/-- The snapshot is not listed by its volume, and the names keep their keys apart. -/
structure Unlisted (store : Store) (v s : String) : Prop where
  volume : SlashFree v
  snapshot : SlashFree s
  fresh : ∀ m, Persisted store v m → s ∉ raws m.archives

section Unlisted

variable {H : IncrementalHash} {P : String → VolumeArchive → Parts → Prop} {v s : String}
  {store store₁ store₂ : Store}

theorem Unlisted.not_recordedKey (h : Unlisted store v s) (hc : Consistent H P store)
    {key : String} (hkey : PartsOf v s key) : ¬ RecordedKey store key := by
  rintro ⟨v', m, a, hv', hp, ha, hkey'⟩
  obtain ⟨rfl, rfl⟩ := partsOf_disjoint h.volume hv' h.snapshot (hc.names v' m hv' hp a ha) hkey
    hkey'
  exact h.fresh m hp (mem_raws.mpr ⟨a, ha, rfl⟩)

theorem Unlisted.persisted_iff (h : Unlisted store v s)
    (hd : DiffersAt (PartsOf v s) store store₁) {v' : String} (hv' : SlashFree v')
    (m : DestMeta) : Persisted store₁ v' m ↔ Persisted store v' m := by
  rw [Persisted, Persisted,
    hd.outside _ (metaKey_not_partsOf hv' h.volume h.snapshot)]

theorem Unlisted.consistent (h : Unlisted store v s) (hc : Consistent H P store)
    (hd : DiffersAt (PartsOf v s) store store₁) : Consistent H P store₁ := by
  refine ⟨?_, ?_⟩
  · intro v' m hv' hp
    exact hc.names v' m hv' ((h.persisted_iff hd hv' m).mp hp)
  · intro v' m hv' hp a ha
    have hp' := (h.persisted_iff hd hv' m).mp hp
    refine (hc.intact v' m hv' hp' a ha).congr fun n => hd.outside _ fun hparts => ?_
    obtain ⟨rfl, rfl⟩ := partsOf_disjoint h.volume hv' h.snapshot (hc.names v' m hv' hp' a ha)
      hparts ⟨n, rfl⟩
    exact h.fresh m hp' (mem_raws.mpr ⟨a, ha, rfl⟩)

theorem Unlisted.keeps (h : Unlisted store v s) (hc : Consistent H P store)
    (h₁ : DiffersAt (PartsOf v s) store store₁) (h₂ : DiffersAt (PartsOf v s) store store₂) :
    Keeps store₁ store₂ := by
  have hiff : ∀ v' m, SlashFree v' → (Persisted store₂ v' m ↔ Persisted store₁ v' m) :=
    fun v' m hv' => (h.persisted_iff h₂ hv' m).trans (h.persisted_iff h₁ hv' m).symm
  refine ⟨fun v' m hv' hp => ⟨m, (hiff v' m hv').mpr hp, rfl, .refl _⟩, ?_⟩
  rintro key ⟨v', m, a, hv', hp, ha, hkey⟩
  have hrec : RecordedKey store key := ⟨v', m, a, hv', (h.persisted_iff h₁ hv' m).mp hp, ha, hkey⟩
  have hout := fun hkey => h.not_recordedKey hc hkey hrec
  rw [h₁.outside _ hout, h₂.outside _ hout]

end Unlisted

/-! ## What one change may do -/

/-- The metadata has exactly one archive more than what it replaces. -/
def AddsOne (store : Store) (v : String) (m : DestMeta) : Prop :=
  ∃ m₀ a, Link v m₀ store ∧ m.firstSyncTimestamp = m₀.firstSyncTimestamp ∧
    a.raw ∉ raws m₀.archives ∧ m.archives.Perm (a :: m₀.archives)

/-- A change leaves recorded files alone, and metadata grows by one archive at a time. -/
structure LeavesRecorded (e : Entry) : Prop where
  keeps : Keeps e.before e.after
  metadata : ∀ v, SlashFree v → (∀ m returned, e.event ≠ .writeMetadata v m returned) →
    ∀ m, Persisted e.after v m ↔ Persisted e.before v m
  writePart : ∀ key, e.event = .writePart key → ¬ RecordedKey e.before key
  writeMetadata : ∀ v m returned, e.event = .writeMetadata v m returned →
    AddsOne e.before v m ∧ (e.after = e.before ∨ Persisted e.after v m) ∧
      (returned = true → Persisted e.after v m)

/-- Besides, the store is consistent on either side of the change. -/
structure Careful (H : IncrementalHash) (P : String → VolumeArchive → Parts → Prop)
    (e : Entry) : Prop extends LeavesRecorded e where
  before : Consistent H P e.before
  after : Consistent H P e.after

/-- Every change so far was careful, so the store is consistent. -/
structure Safe (H : IncrementalHash) (P : String → VolumeArchive → Parts → Prop) (w : World) :
    Prop where
  store : Consistent H P w.store
  trace : ∀ e ∈ w.trace, Careful H P e

section Safe

variable {H : IncrementalHash} {P : String → VolumeArchive → Parts → Prop}
  {Z : StreamEncoder} {env : Env} {ctx : VolumeContext} {step : RunStep} {stream : SendStream}
  {w w₁ w' : World} {m m' : DestMeta} {a : VolumeArchive}

theorem safe_observes : Observes (Safe H P) := by
  intro w w' hs ht h
  exact ⟨hs ▸ h.store, ht ▸ h.trace⟩

/-- The keys of a volume depend on the linked metadata alone. -/
theorem Unlisted.of_link {store : Store} {v s : String} {m : DestMeta} (hl : Link v m store)
    (hv : SlashFree v) (hs : SlashFree s) (hfresh : s ∉ raws m.archives) :
    Unlisted store v s := by
  refine ⟨hv, hs, fun m' hp => ?_⟩
  rcases hl with hl | ⟨hnone, -⟩
  · rwa [hp.unique hl]
  · simp [Persisted, hnone] at hp

theorem Safe.sending (h : Safe H P w)
    (hu : Unlisted w.store ctx.volume step.snap.raw)
    (hs : Sending env ctx step stream w w') : Safe H P w' := by
  obtain ⟨new, htrace, hnew⟩ := hs.frame.trace
  refine ⟨hu.consistent h.store hs.frame.store, ?_⟩
  intro e he
  rw [htrace] at he
  rcases List.mem_append.mp he with he | he
  · obtain ⟨⟨key, hkey, hevent⟩, hbefore, hafter⟩ := hnew e he
    have hb := hu.consistent h.store hbefore
    refine ⟨⟨hu.keeps h.store hbefore hafter, ?_, ?_, ?_⟩, hb, hu.consistent h.store hafter⟩
    · intro v hv _ m
      rw [hu.persisted_iff hafter hv, hu.persisted_iff hbefore hv]
    · intro key' hevent'
      obtain rfl : key = key' := by simpa [hevent] using hevent'
      have hub : Unlisted e.before ctx.volume step.snap.raw :=
        ⟨hu.volume, hu.snapshot, fun m hp =>
          hu.fresh m ((hu.persisted_iff hbefore hu.volume m).mp hp)⟩
      exact hub.not_recordedKey hb hkey
    · simp [hevent]
  · rcases List.mem_cons.mp he with rfl | he
    · exact ⟨⟨.refl _, fun _ _ _ _ => Iff.rfl, by simp, by simp⟩, h.store, h.store⟩
    · exact h.trace e he

/-- Replacing the metadata of one volume leaves the other volumes alone. -/
theorem persisted_update {store : Store} {v v' : String} (hv : SlashFree v)
    (hv' : SlashFree v') (m m' : DestMeta) :
    Persisted (update store (metaKey v) (some (.metadata m))) v' m' ↔
      (v' = v ∧ m' = m) ∨ (v' ≠ v ∧ Persisted store v' m') := by
  by_cases hvv : v' = v
  · subst hvv
    simp [Persisted, eq_comm]
  · have hkey : metaKey v' ≠ metaKey v := fun hk => hvv (metaKey_inj hv' hv hk)
    simp [Persisted, hvv, hkey]

/-- Part files stay, whether or not the metadata is replaced. -/
theorem MetaTried.parts (ht : MetaTried ctx.volume m' w₁ w') (hv : SlashFree ctx.volume)
    {v s : String} (hvs : SlashFree v) (hs : SlashFree s) (n : ℕ) :
    w'.store (partKey v s n) = w₁.store (partKey v s n) := by
  rcases ht.store with hst | hst
  · rw [hst]
  · rw [hst, update_of_ne]
    exact fun heq => metaKey_not_partsOf hv hvs hs ⟨n, heq.symm⟩

/-- What is listed afterwards was listed before or is the new archive, so it is stored. -/
theorem MetaTried.consistent (ht : MetaTried ctx.volume m' w₁ w')
    (h : Consistent H P w₁.store) (hv : SlashFree ctx.volume)
    (hl : Link ctx.volume m w₁.store) (harchives : m'.archives.Perm (a :: m.archives))
    (hname : SlashFree a.raw) (hintact : Intact H P w₁.store ctx.volume a) :
    Consistent H P w'.store := by
  have hlisted : ∀ b ∈ m.archives, SlashFree b.raw ∧ Intact H P w₁.store ctx.volume b := by
    intro b hb
    rcases hl with hp | ⟨-, hnil⟩
    · exact ⟨h.names _ m hv hp b hb, h.intact _ m hv hp b hb⟩
    · simp [hnil] at hb
  have hnew : ∀ b ∈ m'.archives, SlashFree b.raw ∧ Intact H P w₁.store ctx.volume b := by
    intro b hb
    rcases List.mem_cons.mp (harchives.mem_iff.mp hb) with rfl | hb
    · exact ⟨hname, hintact⟩
    · exact hlisted b hb
  have hall : ∀ v m₁, SlashFree v → Persisted w'.store v m₁ → ∀ b ∈ m₁.archives,
      SlashFree b.raw ∧ Intact H P w₁.store v b := by
    intro v m₁ hvs hp b hb
    rcases ht.store with hst | hst
    · rw [hst] at hp
      exact ⟨h.names v m₁ hvs hp b hb, h.intact v m₁ hvs hp b hb⟩
    · rw [hst, persisted_update hv hvs] at hp
      rcases hp with ⟨rfl, rfl⟩ | ⟨-, hp⟩
      · exact hnew b hb
      · exact ⟨h.names v m₁ hvs hp b hb, h.intact v m₁ hvs hp b hb⟩
  refine ⟨fun v m₁ hvs hp b hb => (hall v m₁ hvs hp b hb).1, fun v m₁ hvs hp b hb => ?_⟩
  obtain ⟨hb', hi⟩ := hall v m₁ hvs hp b hb
  exact hi.congr fun n => ht.parts hv hvs hb' n

/-- No archive is taken off any list, and the parts of listed archives stay. -/
theorem MetaTried.keeps (ht : MetaTried ctx.volume m' w₁ w') (h : Consistent H P w₁.store)
    (hv : SlashFree ctx.volume) (hl : Link ctx.volume m w₁.store)
    (hfirst : m'.firstSyncTimestamp = m.firstSyncTimestamp)
    (harchives : m'.archives.Perm (a :: m.archives)) : Keeps w₁.store w'.store := by
  refine ⟨?_, ?_⟩
  · intro v m₁ hvs hp
    rcases ht.store with hst | hst
    · exact ⟨m₁, hst ▸ hp, rfl, .refl _⟩
    · by_cases hvv : v = ctx.volume
      · subst hvv
        refine ⟨m', by rw [hst, persisted_update hv hv]; exact Or.inl ⟨rfl, rfl⟩, ?_⟩
        rcases hl with hl | ⟨hnone, -⟩
        · rw [hp.unique hl]
          exact ⟨hfirst, (List.sublist_cons_self a _).subperm.trans harchives.symm.subperm⟩
        · simp [Persisted, hnone] at hp
      · refine ⟨m₁, ?_, rfl, .refl _⟩
        rw [hst, persisted_update hv hvs]
        exact Or.inr ⟨hvv, hp⟩
  · rintro key ⟨v, m₁, b, hvs, hp, hb, n, rfl⟩
    exact ht.parts hv hvs (h.names v m₁ hvs hp b hb) n

/-- Metadata may list one archive more once its files are stored. -/
theorem Safe.metaTried (h : Safe H P w₁) (ht : MetaTried ctx.volume m' w₁ w')
    (hv : SlashFree ctx.volume) (hl : Link ctx.volume m w₁.store)
    (hfirst : m'.firstSyncTimestamp = m.firstSyncTimestamp)
    (harchives : m'.archives.Perm (a :: m.archives)) (hname : SlashFree a.raw)
    (hfresh : a.raw ∉ raws m.archives) (hintact : Intact H P w₁.store ctx.volume a) :
    Safe H P w' := by
  have hstore := ht.consistent h.store hv hl harchives hname hintact
  have hkeeps := ht.keeps h.store hv hl hfirst harchives
  obtain ⟨returned, htrace, hreturned⟩ := ht.trace
  refine ⟨hstore, ?_⟩
  intro e he
  rw [htrace] at he
  rcases List.mem_cons.mp he with rfl | he
  · refine ⟨⟨hkeeps, ?_, by simp, ?_⟩, h.store, hstore⟩
    · intro v hvs hne m₁
      have hvv : v ≠ ctx.volume := by
        rintro rfl
        exact hne m' returned rfl
      rcases ht.store with hst | hst
      · rw [hst]
      · simp [hst, persisted_update hv hvs, hvv]
    · intro v m₁ returned' hevent
      obtain ⟨rfl, rfl, rfl⟩ : ctx.volume = v ∧ m' = m₁ ∧ returned = returned' := by
        simpa using hevent
      refine ⟨⟨m, a, hl, hfirst, hfresh, harchives⟩, ?_, hreturned⟩
      rcases ht.store with hst | hst
      · exact Or.inl hst
      · exact Or.inr (by rw [hst, persisted_update hv hv]; exact Or.inl ⟨rfl, rfl⟩)
  · exact h.trace e he

/-- Consistency with a property `P` is kept when the parts of complete writes have `P`. -/
theorem keepsSteps_safe (hv : SlashFree ctx.volume)
    (hsnaps : ∀ s ∈ ctx.srcState.snapshots, SlashFree s.raw)
    (hP : ∀ archives step stream parts, Fits False ctx.sendPolicy ctx.srcState archives step →
      Yields env ctx.volume step stream → Clean stream →
      Encodes Z (ctx.maxBackupChunkSize * 1024 * 1024) stream parts →
      P ctx.volume (step.archive (parts.map Prod.fst)) parts) :
    KeepsSteps False H Z env ctx (Safe H P) (Safe H P) := by
  refine .invariant False.elim ?_ ?_
  · intro m step stream w w' hw hl hf hs
    exact hw.sending (.of_link hl hv (hsnaps _ hf.snap_mem) hf.fresh) hs
  · intro m step stream chunks now w w₁ w' hw hl hf hs ht
    have hu : Unlisted w.store ctx.volume step.snap.raw :=
      .of_link hl hv (hsnaps _ hf.snap_mem) hf.fresh
    have hl₁ : Link ctx.volume m w₁.store :=
      hl.congr (hs.frame.store.outside _ (metaKey_not_partsOf hv hv hu.snapshot))
    obtain ⟨parts, rfl, hstored, hencodes⟩ := hs.stored
    exact (hw.sending hu hs.toSending).metaTried ht hv hl₁ rfl (m.addArchive_perm _)
      (hsnaps _ hf.snap_mem) hf.fresh
      ⟨parts, rfl, hstored, hP _ step stream parts hf hs.yields hs.clean hencodes⟩

end Safe

/-! ## Sizes and digests -/

/-- No part is so long that its size does not fit a `u32`. -/
def FitsU32 (_ : String) (_ : VolumeArchive) (parts : Parts) : Prop :=
  ∀ p ∈ parts, p.2.length < 2 ^ 32

theorem Encodes.fitsU32 {Z : StreamEncoder} {mib : ℕ} (hmib : mib ≤ 2048)
    (hZ : ∀ pieces, ∀ b ∈ Z.encode pieces, b.length ≤ 2 ^ 31) {stream : SendStream}
    {parts : Parts} (h : Encodes Z (mib * 1024 * 1024) stream parts) :
    ∀ p ∈ parts, p.2.length < 2 ^ 32 := by
  intro p hp
  have hbound : bufferBound Z stream ≤ 2 ^ 31 :=
    Finset.sup_le fun b hb => hZ _ b (List.mem_toFinset.mp hb)
  have hshort := h.short p hp
  omega

/-- Every chunk file of the archive is there, as long as the recorded size and with the
recorded digest. -/
def Verified (H : IncrementalHash) (store : Store) (v : String) (a : VolumeArchive) : Prop :=
  ∀ c ∈ a.chunks, PartsOf v a.raw (pathInSnapshot v a.raw c.filename) ∧
    ∃ bytes, HasPart store (pathInSnapshot v a.raw c.filename) bytes ∧
      bytes.length = c.size ∧ c.sha256sum = some (hexOf (H.digest bytes))

theorem Intact.verified {H : IncrementalHash} {store : Store} {v : String} {a : VolumeArchive}
    (h : Intact H FitsU32 store v a) : Verified H store v a := by
  obtain ⟨parts, hparts, hstored, hshort⟩ := h
  intro c hc
  rw [hparts] at hc
  obtain ⟨p, hp, rfl⟩ := List.mem_map.mp hc
  obtain ⟨n, -, hname⟩ := hstored.number hp
  obtain ⟨hsize, hsum⟩ := hstored.describes p hp
  refine ⟨⟨n, by rw [hname]; rfl⟩, p.2, hstored.files p hp, ?_, hsum⟩
  rw [hsize, Nat.mod_eq_of_lt (hshort p hp)]

def AllVerified (H : IncrementalHash) (store : Store) : Prop :=
  ∀ v m, SlashFree v → Persisted store v m → ∀ a ∈ m.archives, Verified H store v a

theorem Consistent.allVerified {H : IncrementalHash} {store : Store}
    (h : Consistent H FitsU32 store) : AllVerified H store :=
  fun v m hv hp a ha => (h.intact v m hv hp a ha).verified

/-- However the runs of a history end, every recorded archive verifies at every point, no
part file of a recorded archive is written to, and recorded metadata only grows. -/
theorem crash_consistent (H : IncrementalHash) (Z : StreamEncoder) (runs : List Invocation)
    (store : Store) (hstore : Consistent H FitsU32 store)
    (hnames : ∀ i ∈ runs, ∀ ctx, Visits i.env i.config ctx →
      SlashFree ctx.volume ∧ ∀ s ∈ ctx.srcState.snapshots, SlashFree s.raw)
    (hsize : ∀ i ∈ runs, i.config.maxBackupChunkSize ≤ 2048)
    (hbuffers : ∀ pieces, ∀ b ∈ Z.encode pieces, b.length ≤ 2 ^ 31) :
    AllVerified H (history H Z runs (World.start store)).store ∧
      ∀ later e earlier, (history H Z runs (World.start store)).trace = later ++ e :: earlier →
        AllVerified H e.before ∧ AllVerified H e.after ∧ LeavesRecorded e ∧
          Keeps e.after (history H Z runs (World.start store)).store ∧
          ∀ e' ∈ later, Keeps e.after e'.before ∧ Keeps e.after e'.after := by
  have hsafe : Safe H FitsU32 (history H Z runs (World.start store)) := by
    refine history_invariant safe_observes runs ?_ ⟨hstore, by simp [World.start]⟩
    intro i hi ctx hctx
    obtain ⟨hv, hsnaps⟩ := hnames i hi ctx hctx
    obtain ⟨_, _, _, _, _, _, _, hmib, _⟩ := hctx.visit
    refine runVolume_preserves safe_observes (keepsSteps_safe hv hsnaps ?_)
    intro archives step stream parts _ _ _ hencodes
    exact hencodes.fitsU32 (hmib ▸ hsize i hi) hbuffers
  refine ⟨hsafe.store.allVerified, ?_⟩
  intro later e earlier hsplit
  have htrace := hsafe.trace
  have hlinked := (history H Z runs (World.start store)).linked
  rw [hsplit] at htrace hlinked
  have he := htrace e (by simp)
  refine ⟨he.before.allVerified, he.after.allVerified, he.toLeavesRecorded, ?_⟩
  exact keeps_of_linked hlinked fun e' he' => (htrace e' (by simp [he'])).keeps

/-- A run that fails on its second snapshot, and then one that succeeds. -/
theorem crash_consistent_rerun :
    AllVerified IncrementalHash.keepAll (history IncrementalHash.keepAll
        StreamCodec.bytewise.toStreamEncoder [(twoDays none).failingAt 16, twoDays none]
        (World.start fun _ => none)).store ∧
      ∀ later e earlier, (history IncrementalHash.keepAll StreamCodec.bytewise.toStreamEncoder
          [(twoDays none).failingAt 16, twoDays none] (World.start fun _ => none)).trace =
          later ++ e :: earlier →
        AllVerified IncrementalHash.keepAll e.before ∧
          AllVerified IncrementalHash.keepAll e.after ∧ LeavesRecorded e ∧
          Keeps e.after (history IncrementalHash.keepAll StreamCodec.bytewise.toStreamEncoder
            [(twoDays none).failingAt 16, twoDays none] (World.start fun _ => none)).store ∧
          ∀ e' ∈ later, Keeps e.after e'.before ∧ Keeps e.after e'.after := by
  have hvisits := visits_failingAt (twoDays none) 16
  refine crash_consistent _ _ _ _ (consistent_empty _ _) ?_ ?_ ?_
  · intro i hi ctx hctx
    obtain ⟨-, hv, hsnaps, -⟩ := twoDays_visits (hvisits i hi ctx hctx)
    exact ⟨hv, hsnaps⟩
  · decide
  · intro pieces b hb
    rw [StreamCodec.bytewise_buffers pieces b hb]
    exact Nat.one_le_two_pow

end Bbkar
