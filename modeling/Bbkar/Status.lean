import Bbkar.VisitedVolumes
import Bbkar.Totals
import Bbkar.History

/-!
# The status of a backup

Translation of `status`, which prints for every visited volume its local snapshots, the
range of its archives and their sizes. After a run that returned, the sizes add up to what
the run has reported, and every remote range spans the local one. A printed line is given by
the data in it.
-/
namespace Bbkar
open Codec Effects Function

/-! ## The command -/

def Series.oldestSnapshot (series : Series) : BR Timestamp := orPanic series.snapshots.head?

def Series.newestSnapshot (series : Series) : BR Timestamp := orPanic series.snapshots.getLast?

def DestMeta.oldestArchive (m : DestMeta) : Option VolumeArchive := m.archives.head?

def DestMeta.newestArchive (m : DestMeta) : Option VolumeArchive := m.archives.getLast?

inductive StatusLine where
  | volume (name : String)
  | localSnapshots (count : ℕ) (oldest newest : String)
  | remoteRange (oldest newest : String)
  | archiveStats (label : String) (stats : ArchiveStats)
  deriving DecidableEq, Repr

/-- The world that the executor acts on, and what has been printed. -/
structure StatusWorld where
  world : World
  printed : List StatusLine

def StatusWorld.start (store : Store) : StatusWorld := ⟨World.start store, []⟩

abbrev StatusAct (α : Type) := Exec Halt StatusWorld α

namespace StatusAct

/-- A call of the executor. -/
def executor {α : Type} (x : Act α) : StatusAct α :=
  zoom StatusWorld.world (fun w d => { d with world := w }) x

def printInfo (line : StatusLine) : StatusAct Unit :=
  modify fun d => { d with printed := d.printed ++ [line] }

end StatusAct

/-- One end of the range: nothing without archives, `None` without metadata. -/
def rangeEnd (archiveOf : DestMeta → Option VolumeArchive) (dest : DestState) : String :=
  ((dest.destMeta.map fun m => ((archiveOf m).map VolumeArchive.raw).getD "").getD "None")

/-- One volume, after the line that `for_each_sync` prints for it. -/
def statusVolume (env : Env) (ctx : VolumeContext) : StatusAct Unit := do
  StatusAct.printInfo (.volume ctx.volume)
  let oldest ← liftExcept ctx.srcState.volume.oldestSnapshot
  let newest ← liftExcept ctx.srcState.volume.newestSnapshot
  StatusAct.printInfo (.localSnapshots ctx.srcState.snapshots.length oldest.raw newest.raw)
  let dest ← StatusAct.executor (inspectDestVolume env ctx.volume)
  StatusAct.printInfo (.remoteRange (rangeEnd DestMeta.oldestArchive dest)
    (rangeEnd DestMeta.newestArchive dest))
  StatusAct.printInfo (.archiveStats "remote usage" (ArchiveStats.fromMeta dest.destMeta))

def status (env : Env) (config : Config) (name : Option String) : StatusAct Unit :=
  forEachSync (StatusAct.executor (callInspectSource env)) config name (return)
    (statusVolume env) (return)

/-- The ends of a sorted list bound what is between them. -/
theorem exists_ends {α : Type} {r : α → α → Prop} [Std.Refl r] {xs : List α}
    (h : xs.Pairwise r) (hne : xs ≠ []) :
    ∃ first last, xs.head? = some first ∧ xs.getLast? = some last ∧ first ∈ xs ∧ last ∈ xs ∧
      ∀ x ∈ xs, r first x ∧ r x last :=
  ⟨xs.head hne, xs.getLast hne, List.head?_eq_some_head hne, List.getLast?_eq_some_getLast hne,
    List.head_mem hne, List.getLast_mem hne, fun _ hx => ⟨h.rel_head hx, h.rel_getLast hx⟩⟩

/-! ## What a run counts -/

/-- What `status` prints as the usage of a volume. -/
def usage (store : Store) (volume : String) : ArchiveStats :=
  ArchiveStats.fromMeta (destStateOn store volume).destMeta

theorem usage_congr {store store' : Store} {volume : String}
    (h : store' (metaKey volume) = store (metaKey volume)) :
    usage store' volume = usage store volume := by
  rw [usage, usage, destStateOn, destStateOn, h]

theorem Link.usage_eq {volume : String} {m : DestMeta} {store : Store}
    (h : Link volume m store) : usage store volume = ArchiveStats.fromMeta (some m) := by
  have harchives := h.destStateOn_archives
  rw [usage, ArchiveStats.fromMeta_eq, ArchiveStats.fromMeta_eq, Option.map_some,
    Option.getD_some, ← harchives, DestState.archives]

theorem Link.readable {volume : String} {m : DestMeta} {store : Store}
    (h : Link volume m store) : Readable store volume := by
  intro bytes hpart
  rcases h with hp | ⟨hnone, -⟩
  · rw [Persisted, hpart] at hp
    simp at hp
  · rw [hpart] at hnone
    simp at hnone

/-- As much has been added to the usage as has been counted as sent. -/
def Balanced (stats stats' : ArchiveStats) (w w' : World) : Prop :=
  ∃ more, stats' = stats + more ∧ w'.sent = w.sent + more ∧
    w'.totalBytesSent = w.totalBytesSent + more.allSize

theorem Balanced.refl (stats : ArchiveStats) (w : World) : Balanced stats stats w w :=
  ⟨0, (add_zero _).symm, (add_zero _).symm, rfl⟩

theorem Balanced.trans {stats stats' stats'' : ArchiveStats} {w w' w'' : World}
    (h : Balanced stats stats' w w') (h' : Balanced stats' stats'' w' w'') :
    Balanced stats stats'' w w'' := by
  obtain ⟨more, hstats, hsent, htotal⟩ := h
  obtain ⟨more', hstats', hsent', htotal'⟩ := h'
  refine ⟨more + more', ?_, ?_, ?_⟩
  · rw [hstats', hstats, add_assoc]
  · rw [hsent', hsent, add_assoc]
  · rw [htotal', htotal, Nat.add_assoc]
    rfl

theorem ofArchive_allSize (a : VolumeArchive) :
    (ArchiveStats.ofArchive a).allSize = a.totalSize := by
  unfold ArchiveStats.ofArchive ArchiveStats.single ArchiveStats.addSize
  cases a.isIncremental <;> simp [ArchiveStats.default]

section Run

variable {H : IncrementalHash} {Z : StreamEncoder} {env : Env} {ctx : VolumeContext}

theorem executeStep_balanced {m : DestMeta} {step : RunStep} {w : World} :
    wp (executeStep H Z env ctx m step)
      (fun m' w' => Link ctx.volume m' w'.store ∧ w'.remote = w.remote ∧
        Balanced (ArchiveStats.fromMeta (some m)) (ArchiveStats.fromMeta (some m')) w w')
      (fun _ _ => True) w := by
  refine executeStep_rule H Z env ctx m step w (fun _ _ _ _ => trivial) ?_
  intro stream chunks now w₁ hsent
  unfold writeMetadata
  simp only [wp_bind, wp_get, wp_modify]
  cases env.fault _ with
  | some e => trivial
  | none =>
    obtain ⟨hs, hr, ht⟩ := hsent.frame.stats
    refine ⟨Or.inl (by simp [Persisted]), hr, ArchiveStats.ofArchive (step.archive chunks), ?_,
      ?_, ?_⟩
    · exact ArchiveStats.fromMeta_addArchive m (step.archive chunks)
    · have hsent' : w₁.sent = w.sent := hs
      rw [← hsent']
      exact ArchiveStats.addArchive_eq _ _
    · have htotal : w₁.totalBytesSent = w.totalBytesSent := ht
      rw [ofArchive_allSize, ← htotal]
      rfl

/-- A volume that has been run over is reported with the usage it has now. -/
structure VolumeCounted (ctx : VolumeContext) (w w' : World) : Prop where
  remote : w'.remote = w.remote + usage w'.store ctx.volume
  balanced : Balanced (usage w.store ctx.volume) (usage w'.store ctx.volume) w w'

theorem runVolume_counted (w : World) :
    wp (runVolume H Z env ctx) (fun _ => VolumeCounted ctx w) (fun _ _ => True) w := by
  unfold runVolume
  simp only [wp_bind]
  refine wp_mono inspectDestVolume_returned ?_ (fun _ _ _ => trivial)
  rintro dest w₁ ⟨rfl, hread, rfl⟩
  simp only [wp_liftExcept, wp_modify]
  refine ⟨fun plan _ => ?_, fun _ _ => trivial⟩
  unfold executePlan
  split_ifs
  · exact ⟨rfl, Balanced.refl _ w⟩
  · simp only [wp_bind, wp_pure]
    refine wp_mono openMeta_spec ?_ fun _ _ h => h.elim
    rintro m w₂ ⟨hopen, hsame⟩
    -- the metadata to extend has the usage of the destination
    have hopened : Link ctx.volume m w.store := by
      rcases hopen with hm | ⟨hnone, now, rfl⟩
      · exact Or.inl (persisted_of_destMeta hm)
      · exact Or.inr ⟨hread.eq_none hnone, rfl⟩
    have hstart : Link ctx.volume m w₂.store ∧ w₂.remote = w.remote ∧
        Balanced (usage w.store ctx.volume) (ArchiveStats.fromMeta (some m)) w w₂ := by
      rw [hopened.usage_eq]
      rcases hsame with rfl | rfl
      all_goals exact ⟨hopened, rfl, Balanced.refl _ w⟩
    refine wp_mono_ok (wp_foldlM (I := fun _ m' w' => Link ctx.volume m' w'.store ∧
      w'.remote = w.remote ∧ Balanced (usage w.store ctx.volume)
        (ArchiveStats.fromMeta (some m')) w w') plan.steps m ?_ hstart) ?_
    · rintro step rest m' w' ⟨-, hremote, hbalanced⟩
      refine wp_mono_ok executeStep_balanced fun m'' w'' h => ?_
      exact ⟨h.1, h.2.1.trans hremote, hbalanced.trans h.2.2⟩
    · rintro m' w' ⟨hlink, hremote, hbalanced⟩
      have husage := hlink.usage_eq
      refine ⟨?_, ?_⟩
      · change w'.remote.merge _ = _
        rw [hremote, ← ArchiveStats.add_eq_merge]
        exact congrArg _ husage.symm
      · obtain ⟨more, hmore, hsent, htotal⟩ := hbalanced
        exact ⟨more, husage.trans hmore, hsent, htotal⟩

/-! ## The run -/

variable {config : Config} {name : Option String} {states : List (String × SourceState)}
  {store : Store}

/-- The usage of some volumes together. -/
def totalUsage (store : Store) (ctxs : List VolumeContext) : ArchiveStats :=
  (ctxs.map fun ctx => usage store ctx.volume).sum

theorem totalUsage_append (store : Store) (ctxs ctxs' : List VolumeContext) :
    totalUsage store (ctxs ++ ctxs') = totalUsage store ctxs + totalUsage store ctxs' := by
  rw [totalUsage, List.map_append, List.sum_append]
  rfl

theorem totalUsage_congr {store store' : Store} {ctxs : List VolumeContext}
    (h : ∀ ctx ∈ ctxs, store' (metaKey ctx.volume) = store (metaKey ctx.volume)) :
    totalUsage store' ctxs = totalUsage store ctxs :=
  congrArg List.sum (List.map_congr_left fun ctx hctx => usage_congr (h ctx hctx))

/-- A run has gone over the volumes `done`, and not yet over `rest`. -/
structure CountedSoFar (store : Store) (done rest : List VolumeContext) (w : World) : Prop where
  remote : w.remote = totalUsage w.store done
  sent : w.remote = w.sent + totalUsage store done
  total : w.totalBytesSent = w.sent.allSize
  archived : ∀ ctx ∈ done, Archived ctx w.store
  untouched : ∀ ctx ∈ rest, w.store (metaKey ctx.volume) = store (metaKey ctx.volume)

theorem runVolume_archived (w : World) :
    wp (runVolume H Z env ctx) (fun _ w' => Archived ctx w'.store) (fun _ _ => True) w := by
  have hkeeps : KeepsSteps False H Z env ctx (fun _ => True) (fun _ => True) :=
    .invariant False.elim (fun _ _ _ _ _ _ _ _ _ => trivial)
      (fun _ _ _ _ _ _ _ _ _ _ _ _ _ => trivial)
  exact wp_mono_ok (runVolume_spec (fun _ _ _ _ _ => trivial) hkeeps trivial) fun _ _ h => h.2

theorem CountedSoFar.step {done rest : List VolumeContext} {w : World}
    (h : CountedSoFar store done (ctx :: rest) w)
    (hnodup : ((done ++ ctx :: rest).map VolumeContext.volume).Nodup)
    (hslash : ∀ c ∈ done ++ ctx :: rest, SlashFree c.volume) :
    wp (runVolume H Z env ctx) (fun _ => CountedSoFar store (done ++ [ctx]) rest)
      (fun _ _ => True) w := by
  have hcounted : wp (runVolume H Z env ctx)
      (fun _ w' => VolumeCounted ctx w w' ∧ Archived ctx w'.store) (fun _ _ => True) w :=
    wp_mono (wp_and (runVolume_counted w) (runVolume_archived w)) (fun _ _ h => h)
      fun _ _ _ => trivial
  rcases hout : outcome (runVolume H Z env ctx) w with ⟨e | u, w'⟩
  · exact (wp_of_error hout).mpr trivial
  rw [wp_of_ok hout] at hcounted ⊢
  obtain ⟨⟨hremote, more, hmore, hsent, htotal⟩, harchived⟩ := hcounted
  rw [List.map_append, List.map_cons, List.nodup_append, List.nodup_cons] at hnodup
  obtain ⟨-, ⟨hrest, -⟩, hdone⟩ := hnodup
  -- the other volumes stay as they are
  have hother : ∀ c ∈ done ++ ctx :: rest, c.volume ≠ ctx.volume →
      w'.store (metaKey c.volume) = w.store (metaKey c.volume) := by
    intro c hc hne
    have hkept := runVolume_other H Z env (hslash ctx (by simp)) (hslash c hc) hne
      (keyOf_metaKey c.volume) w
    rwa [hout] at hkept
  have hdone' : ∀ c ∈ done, w'.store (metaKey c.volume) = w.store (metaKey c.volume) := by
    intro c hc
    apply hother c (by simp [hc])
    exact hdone c.volume (List.mem_map_of_mem hc) ctx.volume (by simp)
  have hstart : usage w.store ctx.volume = usage store ctx.volume :=
    usage_congr (h.untouched ctx (by simp))
  constructor
  · rw [totalUsage_append, totalUsage_congr hdone', ← h.remote, hremote]
    simp [totalUsage]
  · have hnew : totalUsage store [ctx] = usage store ctx.volume := by simp [totalUsage]
    rw [totalUsage_append, hnew, hremote, hmore, hsent, h.sent, hstart,
      add_comm (usage store ctx.volume), add_add_add_comm]
  · rw [htotal, hsent, h.total]
    rfl
  · intro c hc
    rcases List.mem_append.mp hc with hc | hc
    · obtain ⟨m, hlink, hall⟩ := h.archived c hc
      exact ⟨m, hlink.congr (hdone' c hc), hall⟩
    · obtain rfl := List.mem_singleton.mp hc
      exact harchived
  · intro c hc
    have hne : c.volume ≠ ctx.volume := fun heq => hrest (heq ▸ List.mem_map_of_mem hc)
    rw [hother c (by simp [hc]) hne, h.untouched c (by simp [hc])]

theorem visited_slashFree (hslash : ∀ state ∈ states, SlashFree state.1) :
    ∀ ctx ∈ visited config name states, SlashFree ctx.volume := by
  intro ctx hctx
  obtain ⟨state, hstate, rfl, -⟩ := mem_visited hctx
  exact hslash _ hstate

/-- A run that returned has reported its volumes as they are now. -/
theorem run_countedSoFar (hnames : (states.map Prod.fst).Nodup)
    (hslash : ∀ state ∈ states, SlashFree state.1) (hstates : env.inspectSource = .ok states) :
    wp (run H Z env config name)
      (fun _ => CountedSoFar store (visited config name states) []) (fun _ _ => True)
      (World.start store) := by
  rcases selected_or_unvisited config name with ⟨sync, hsync, hname⟩ | hnone
  · rw [run_eq_forEachSync, wp_bind, wp_modify, wp_forEachSync hsync hname]
    unfold callInspectSource
    simp only [wp_modify, wp_bind, wp_call, wp_liftExcept, hstates, Except.ok.injEq,
      forall_eq', reduceCtorEq, implies_true, and_true, wp_pure]
    intro _
    let I : List VolumeContext → World → Prop := fun rest w =>
      ∃ done, visited config name states = done ++ rest ∧ CountedSoFar store done rest w
    refine wp_mono_ok (wp_forM (I := I) (visited config name states) ?_ ⟨[], rfl, ?_⟩) ?_
    · rintro ctx rest w ⟨done, hsplit, hw⟩
      have hnodup := visited_volumes_nodup config name hnames
      have hslash' : ∀ c ∈ visited config name states, SlashFree c.volume :=
        visited_slashFree hslash
      rw [hsplit] at hnodup hslash'
      refine wp_mono_ok (hw.step hnodup hslash') fun _ w' hw' => ⟨done ++ [ctx], ?_, hw'⟩
      rw [hsplit, List.append_assoc, List.singleton_append]
    · exact ⟨rfl, rfl, rfl, by simp, fun _ _ => rfl⟩
    · rintro _ w ⟨done, hsplit, hw⟩
      rw [List.append_nil] at hsplit
      rwa [hsplit]
  · obtain ⟨r, hr⟩ := run_unvisited (H := H) (Z := Z) hnone
    rw [visited_unvisited hnone]
    cases r with
    | error e => exact (wp_of_error (hr env (World.start store))).mpr trivial
    | ok u =>
      refine (wp_of_ok (hr env (World.start store))).mpr ⟨rfl, rfl, rfl, by simp, by simp⟩

end Run

/-! ## The status after it -/

def StatusLine.usage : StatusLine → ArchiveStats
  | archiveStats _ stats => stats
  | _ => 0

/-- All usage that has been printed. -/
def printedUsage (lines : List StatusLine) : ArchiveStats := (lines.map StatusLine.usage).sum

/-- The lines for one volume, whose remote range spans the local one. -/
def ReportsVolume (store : Store) (ctx : VolumeContext) (block : List StatusLine) : Prop :=
  ∃ oldest ∈ ctx.srcState.snapshots, ∃ newest ∈ ctx.srcState.snapshots, ∃ first last : String,
    block = [.volume ctx.volume,
      .localSnapshots ctx.srcState.snapshots.length oldest.raw newest.raw,
      .remoteRange first last, .archiveStats "remote usage" (usage store ctx.volume)] ∧
    (∀ s ∈ ctx.srcState.snapshots, oldest ≤ s ∧ s ≤ newest) ∧
    first ≤ oldest.raw ∧ newest.raw ≤ last

theorem printedUsage_blocks {store : Store} {ctxs : List VolumeContext}
    {blocks : List (List StatusLine)} (h : List.Forall₂ (ReportsVolume store) ctxs blocks) :
    printedUsage blocks.flatten = totalUsage store ctxs := by
  induction h with
  | nil => rfl
  | @cons ctx block ctxs blocks hblock _ ih =>
    obtain ⟨_, _, _, _, _, _, rfl, -⟩ := hblock
    unfold printedUsage totalUsage at ih ⊢
    rw [List.flatten_cons, List.map_append, List.sum_append, ih, List.map_cons, List.sum_cons]
    simp [StatusLine.usage]

section After

variable {after : Env} {ctx : VolumeContext}

@[simp] theorem wp_statusExecutor {α : Type} {x : Act α} {Q : α → StatusWorld → Prop}
    {E : Halt → StatusWorld → Prop} {d : StatusWorld} :
    wp (StatusAct.executor x) Q E d ↔
      wp x (fun a w => Q a { d with world := w }) (fun e w => E e { d with world := w })
        d.world := by
  unfold StatusAct.executor
  exact wp_zoom

/-- The range of the archives spans every snapshot that is archived. -/
theorem Archived.range_spans {store : Store} (h : Archived ctx store) {s : Timestamp}
    (hs : s ∈ ctx.srcState.snapshots) :
    rangeEnd DestMeta.oldestArchive (destStateOn store ctx.volume) ≤ s.raw ∧
      s.raw ≤ rangeEnd DestMeta.newestArchive (destStateOn store ctx.volume) := by
  obtain ⟨m, hlink, hall⟩ := h
  obtain ⟨a, ha, hraw⟩ := mem_raws.mp (hall s hs)
  rcases hlink with hp | ⟨-, hnil⟩
  · have : Std.Refl fun a b : VolumeArchive => a.timestamp ≤ b.timestamp :=
      ⟨fun _ => le_refl _⟩
    obtain ⟨first, last, hfirst, hlast, -, -, hspan⟩ :=
      exists_ends m.sorted (List.ne_nil_of_mem ha)
    rw [destStateOn_persisted hp]
    simp only [rangeEnd, DestMeta.oldestArchive, DestMeta.newestArchive, hfirst, hlast,
      Option.map_some, Option.getD_some, ← hraw]
    exact ⟨Timestamp.raw_le_of_le (hspan a ha).1, Timestamp.raw_le_of_le (hspan a ha).2⟩
  · simp [hnil] at ha

theorem statusVolume_spec (hcalm : ∀ n, after.fault n = none)
    (hne : ctx.srcState.snapshots ≠ []) {d : StatusWorld} (h : Archived ctx d.world.store) :
    wp (statusVolume after ctx)
      (fun _ d' => d'.world.store = d.world.store ∧ ∃ block,
        d'.printed = d.printed ++ block ∧ ReportsVolume d.world.store ctx block)
      (fun _ _ => False) d := by
  obtain ⟨oldest, newest, hhead, hlast, hold, hnew, hspan⟩ :=
    exists_ends ctx.srcState.volume.sorted hne
  have hread : Readable d.world.store ctx.volume := by
    obtain ⟨m, hlink, -⟩ := h
    exact hlink.readable
  unfold statusVolume StatusAct.printInfo Series.oldestSnapshot Series.newestSnapshot orPanic
  simp only [hhead, hlast, wp_bind, wp_modify, wp_liftExcept, Except.ok.injEq, forall_eq',
    reduceCtorEq, false_implies, implies_true, and_true, wp_statusExecutor]
  rw [wp_inspectDestVolume hcalm hread]
  refine ⟨rfl, _, ?_, oldest, hold, newest, hnew,
    rangeEnd DestMeta.oldestArchive (destStateOn d.world.store ctx.volume),
    rangeEnd DestMeta.newestArchive (destStateOn d.world.store ctx.volume), rfl, hspan, ?_, ?_⟩
  · simp only [List.append_assoc, List.cons_append, List.nil_append, usage]
  · exact (h.range_spans hold).1
  · exact (h.range_spans hnew).2

/-- What `status` shows after a run that ended in `w`, from the objects that it finds. -/
structure StatusAfter (found store : Store) (ctxs : List VolumeContext) (w : World)
    (d : StatusWorld) : Prop where
  unchanged : d.world.store = found
  blocks : ∃ blocks, d.printed = blocks.flatten ∧ List.Forall₂ (ReportsVolume found) ctxs blocks
  remote : printedUsage d.printed = w.remote
  sent : w.remote = w.sent + totalUsage store ctxs
  total : w.totalBytesSent = w.sent.allSize

/-- Where every visited volume is archived, `status` returns and prints one block for each. -/
theorem status_visited {config : Config} {name : Option String} {sync : SyncSpec}
    {states : List (String × SourceState)} {store : Store} (hsync : config.sync = some sync)
    (hname : name.all (· == sync.name) = true) (hcalm : ∀ n, after.fault n = none)
    (hstates : after.inspectSource = .ok states)
    (harchived : ∀ ctx ∈ visited config name states, Archived ctx store)
    (hne : ∀ ctx ∈ visited config name states, ctx.srcState.snapshots ≠ []) :
    wp (status after config name)
      (fun _ d => d.world.store = store ∧ ∃ blocks, d.printed = blocks.flatten ∧
        List.Forall₂ (ReportsVolume store) (visited config name states) blocks)
      (fun _ _ => False) (StatusWorld.start store) := by
  unfold status callInspectSource
  rw [wp_forEachSync hsync hname]
  simp only [wp_pure, wp_statusExecutor, wp_bind, wp_call, wp_liftExcept, hcalm, hstates,
    true_implies, Except.ok.injEq, forall_eq', reduceCtorEq, false_implies, implies_true, and_true]
  let I : List VolumeContext → StatusWorld → Prop := fun rest d => d.world.store = store ∧
    ∃ done blocks, visited config name states = done ++ rest ∧ d.printed = blocks.flatten ∧
      List.Forall₂ (ReportsVolume store) done blocks
  refine wp_mono_ok (wp_forM (I := I) (visited config name states) ?_
    ⟨rfl, [], [], rfl, rfl, .nil⟩) ?_
  · rintro ctx rest d ⟨hd, done, blocks, hsplit, hprinted, hblocks⟩
    have hctx : ctx ∈ visited config name states := by rw [hsplit]; simp
    refine wp_mono_ok (statusVolume_spec hcalm (hne ctx hctx) (hd ▸ harchived ctx hctx)) ?_
    rintro _ d' ⟨hd', block, hprinted', hblock⟩
    refine ⟨hd'.trans hd, done ++ [ctx], blocks ++ [block], ?_, ?_, ?_⟩
    · rw [hsplit, List.append_assoc, List.singleton_append]
    · rw [hprinted', hprinted, List.flatten_append, List.flatten_singleton]
    · rw [hd] at hblock
      exact List.rel_append hblocks (.cons hblock .nil)
  · rintro _ d ⟨hd, done, blocks, hsplit, hprinted, hblocks⟩
    rw [List.append_nil] at hsplit
    exact ⟨hd, blocks, hprinted, hsplit ▸ hblocks⟩

end After

/-- After a run that returned, `status` returns where its own calls succeed. The usage it prints
adds up to the remote usage that the run reported, which is what the run sent on top of what
was there, and the archives of every volume span its snapshots. Both commands read through a
library that keeps plain paths. -/
theorem status_after_run (normalizePath : String → String) (hpath : KeepsPlain normalizePath)
    (H : IncrementalHash) (Z : StreamEncoder) (env after : Env) (config : Config)
    (name : Option String) (states : List (String × SourceState)) (store : Store) (w : World)
    (hstates : env.inspectSource = .ok states) (hafter : after.inspectSource = .ok states)
    (hcalm : ∀ n, after.fault n = none) (hnames : (states.map Prod.fst).Nodup)
    (hplain : ∀ state ∈ states, PlainVolume state.1)
    (hne : ∀ state ∈ states, state.2.snapshots ≠ [])
    (hrun : outcome (runAt normalizePath H Z env config name) (World.start store) = (.ok (), w)) :
    let found := (w.through normalizePath).store
    ∃ d, outcome (status after config name) (StatusWorld.start found) = (.ok (), d) ∧
      StatusAfter found store (visited config name states) w d := by
  intro found
  have hvisits : ∀ ctx, Visits env config ctx → PlainVolume ctx.volume := by
    intro ctx hctx
    obtain ⟨_, states', -, hstates', hmem, -⟩ := hctx.visit
    obtain rfl := Except.ok.inj (hstates.symm.trans hstates')
    exact hplain _ hmem
  rw [runAt_plain hpath name hvisits] at hrun
  have hcounted := wp_ok
    (run_countedSoFar hnames (fun state hstate => (hplain state hstate).slashFree) hstates) hrun
  -- the library finds the metadata of every visited volume
  have hfound : ∀ ctx ∈ visited config name states,
      found (metaKey ctx.volume) = w.store (metaKey ctx.volume) := by
    intro ctx hctx
    obtain ⟨state, hstate, rfl, -⟩ := mem_visited hctx
    exact through_metaKey hpath (hplain _ hstate) w
  rcases selected_or_unvisited config name with ⟨sync, hsync, hname⟩ | hnone
  · have hne' : ∀ ctx ∈ visited config name states, ctx.srcState.snapshots ≠ [] := by
      intro ctx hctx
      obtain ⟨state, hstate, rfl, -⟩ := mem_visited hctx
      exact hne _ hstate
    have harchived : ∀ ctx ∈ visited config name states, Archived ctx found := by
      intro ctx hctx
      obtain ⟨m, hlink, hall⟩ := hcounted.archived ctx hctx
      exact ⟨m, hlink.congr (hfound ctx hctx), hall⟩
    obtain ⟨u, d, hout, hd, blocks, hprinted, hblocks⟩ := exists_of_wp
      (status_visited hsync hname hcalm hafter harchived hne')
    refine ⟨d, hout, hd, ⟨blocks, hprinted, hblocks⟩, ?_, hcounted.sent, hcounted.total⟩
    rw [hprinted, printedUsage_blocks hblocks, hcounted.remote, totalUsage_congr hfound]
  · obtain ⟨r, hr⟩ := forEachSync_unvisited hnone
    have hran : outcome (run H Z env config name) (World.start store) =
        (r, World.start store) := by
      rw [run_eq_forEachSync]
      exact hr _ _ _ _ _ _
    obtain ⟨rfl, rfl⟩ := Prod.mk.inj (hran.symm.trans hrun)
    refine ⟨_, hr _ _ _ _ _ _, rfl, ⟨[], rfl, ?_⟩, rfl, hcounted.sent, hcounted.total⟩
    rw [visited_unvisited hnone]
    exact .nil

/-- Two snapshots on an empty destination, in full and on top of it. -/
theorem status_after_run_twoDays :
    ∃ w d, outcome (status (twoDays none).env (twoDays none).config none)
        (StatusWorld.start (w.through trimPath).store) = (.ok (), d) ∧
      StatusAfter (w.through trimPath).store (fun _ => none)
        (visited (twoDays none).config none [("root", twoDaysSource)]) w d ∧
      w.remote = ⟨2, 2, 1, 1, 1, 1⟩ := by
  obtain ⟨⟨⟩, w, hrun⟩ := exists_of_isOk (x := runAt trimPath .keepAll
    StreamCodec.identity.toStreamEncoder (twoDays none).env (twoDays none).config none)
    (s := World.start fun _ => none) (by decide +kernel)
  have hremote : (outcome (runAt trimPath .keepAll StreamCodec.identity.toStreamEncoder
      (twoDays none).env (twoDays none).config none) (World.start fun _ => none)).2.remote =
        ⟨2, 2, 1, 1, 1, 1⟩ := by decide +kernel
  rw [hrun] at hremote
  obtain ⟨d, hstatus, hafter⟩ := status_after_run trimPath trimPath_keepsPlain .keepAll
    StreamCodec.identity.toStreamEncoder (twoDays none).env (twoDays none).env
    (twoDays none).config none [("root", twoDaysSource)] (fun _ => none) w rfl rfl
    (fun _ => rfl) (by decide) (by decide) (by decide) hrun
  exact ⟨w, d, hstatus, hafter, hremote⟩

end Bbkar
