import Bbkar.ReadOnlyCommands
import Bbkar.SharedDestination
import Mathlib.Data.Finset.Sort

/-!
# Commands in any order

Translation of the dispatch of `main`. Each command is a process of its own on one destination
and one restore root, and the next one starts whether or not it has failed. The root then holds
what the restores selected, each at its time, and `ls --restore-root` says so.
-/
namespace Bbkar
open KeySort ParentForest Codec Effects SendReceive Function

variable {C : Type}

/-! ## The commands -/

/-- What the commands act on. -/
structure Host (C : Type) where
  world : World
  root : Root String C

/-- A machine that has not been used yet. -/
def Host.new : Host C := ⟨World.start fun _ => none, Root.empty⟩

abbrev HostAct (C α : Type) := Exec Halt (Host C) α

/-- `--root` and `--restore-root` name the one restore root. -/
inductive Commands where
  | status (i : Invocation)
  | ls (i : Invocation) (restoreRoot : Bool)
  | run (i : Invocation)
  | dryrun (i : Invocation) (measureSend : Bool)
  | restore (env : Env) (volume : String) (snapshot : List String)
    (minTimestamp maxTimestamp : Option String)
  | dryRestore (env : Env) (volume : String) (snapshot : List String)
    (minTimestamp maxTimestamp : Option String)

/-- The names in the restore root, as `read_dir` lists them. -/
def Host.entryNames (h : Host C) : List String := h.root.entries.sort

namespace Commands

section Main

variable (H : IncrementalHash) (Z : StreamCodec) (T : Transfer String C Bytes)

def main : Commands → HostAct C Unit
  | status i => zoom (fun h => StatusWorld.mk h.world []) (fun d h => { h with world := d.world })
      (Bbkar.status i.env i.config i.name)
  | ls i restoreRoot => do
    let h ← get
    zoom (fun h => LsWorld.mk h.world []) (fun d h => { h with world := d.world })
      (Bbkar.ls i.env i.config i.name (if restoreRoot then some h.entryNames else none))
  | run i => zoom Host.world (fun w h => { h with world := w }) (i.run H Z.toStreamEncoder)
  | dryrun i measureSend => zoom
      (fun h => DryWorld.mk h.world ArchiveStats.default ArchiveStats.default [])
      (fun d h => { h with world := d.world })
      (Bbkar.dryrun Z.toStreamEncoder i.env i.config measureSend i.name)
  | restore env volume snapshot lo hi => zoom (fun h => Restoring.mk h.world h.root [])
      (fun st _ => ⟨st.world, st.root⟩) (Bbkar.restore Z T env volume snapshot lo hi)
  | dryRestore env volume snapshot lo hi => do
    let _ ← zoom (fun h => Restoring.mk h.world h.root []) (fun st _ => ⟨st.world, st.root⟩)
      (RestoreAttempt.dryrestore ⟨env, restoreArchive Z T env, volume, snapshot, lo, hi⟩)
    return

/-- The commands one after the other on a new machine. -/
def runAll (commands : List Commands) : Host C := session (commands.map (main H Z T)) Host.new

/-- The snapshot is one that a restore selects from this destination, or an ancestor of one. -/
def Restores (store : Store) (volume raw : String) : Commands → Prop
  | restore _ v snapshot lo hi => volume = v ∧ ∃ m, Persisted store v m ∧
      Selectable m.archives snapshot lo hi ∧
      Closure (parentForest m.archives) (Selected m.archives snapshot lo hi) raw
  | _ => False

/-- Some restore among the commands was for the snapshot. -/
def RestoredBy (commands : List Commands) (volume raw : String) : Prop :=
  Occurs (fun before c => c.Restores (runAll H Z T before).world.store volume raw) commands

end Main

/-- What comes from outside: snapshots as the scan names them, streams that are whole where they
report no error, and restores whose calls succeed. -/
def Permitted (T : Transfer String C Bytes) (content : String → String → C) : Commands → Prop
  | run i => ∀ ctx, Visits i.env i.config ctx → ctx.Sendable ∧ SendsContent T content i.env ctx ∧
      ∀ s ∈ ctx.srcState.snapshots, '.' ∉ s.raw.toList
  | restore env volume _ _ _ => ¬ env.Faulty ∧ SlashFree volume
  | _ => True

end Commands

/-! ## The destination between commands -/

/-- The metadata can be restored from, and its names have no further dot. -/
def Restorable (archives : List VolumeArchive) : Prop :=
  Coherent archives ∧ ∀ a ∈ archives, '.' ∉ a.raw.toList

structure RestorableDest (H : IncrementalHash) (Z : StreamCodec) (T : Transfer String C Bytes)
    (content : String → String → C) (w : World) : Prop where
  safe : Safe H (Decodes Z T content) w
  restorable : AlwaysMeta (fun _ archives => Restorable archives) w
  readable : ∀ v, SlashFree v → Readable w.store v

section Runs

variable {H : IncrementalHash} {Z : StreamEncoder} {P : String → VolumeArchive → Parts → Prop}
  {env : Env} {ctx : VolumeContext} {store₀ : Store}

/-- Whatever was recorded before the run is kept in it. -/
theorem keepsSteps_keeps (hctx : ctx.Sendable)
    (hP : ∀ archives step stream parts, Fits False ctx.sendPolicy ctx.srcState archives step →
      Yields env ctx.volume step stream → Clean stream →
      Encodes Z (ctx.maxBackupChunkSize * 1024 * 1024) stream parts →
      P ctx.volume (step.archive (parts.map Prod.fst)) parts) :
    KeepsSteps False H Z env ctx (fun w => Safe H P w ∧ Keeps store₀ w.store)
      (fun w => Safe H P w ∧ Keeps store₀ w.store) := by
  have hsafe : KeepsSteps False H Z env ctx (Safe H P) (Safe H P) :=
    keepsSteps_safe hctx.volume hctx.snapshots hP
  -- the parts are written before the metadata that lists them
  have hparts : ∀ {m step stream w w'}, Safe H P w → Link ctx.volume m w.store →
      Fits False ctx.sendPolicy ctx.srcState m.archives step →
      Sending env ctx step stream w w' → Keeps w.store w'.store := by
    intro m step stream w w' hw hl hf hs
    have hu : Unlisted w.store ctx.volume step.snap.raw :=
      .of_link hl hctx.volume (hctx.snapshots _ hf.snap_mem) hf.fresh
    exact hu.keeps hw.store (.refl _) hs.frame.store
  apply KeepsSteps.invariant False.elim
  · intro m step stream w w' hw hl hf hs
    exact ⟨hsafe.sending m step stream w w' hw.1 hl hf hs,
      hw.2.trans (hparts hw.1 hl hf hs)⟩
  · intro m step stream chunks now w w₁ w' hw hl hf hs ht
    have hw₁ := hsafe.sending m step stream w w₁ hw.1 hl hf hs.toSending
    have hl₁ : Link ctx.volume m w₁.store := hl.congr (hs.frame.store.outside _
      (metaKey_not_partsOf hctx.volume hctx.volume (hctx.snapshots _ hf.snap_mem)))
    have hmeta : Keeps w₁.store w'.store :=
      ht.keeps hw₁.store hctx.volume hl₁ rfl (m.addArchive_perm _)
    exact ⟨hsafe.tried m step stream chunks now w w₁ w' hw.1 hl hf hs ht,
      (hw.2.trans (hparts hw.1 hl hf hs.toSending)).trans hmeta⟩

theorem keepsSteps_readable (hctx : ctx.Sendable) :
    KeepsSteps False H Z env ctx (fun w => ∀ v, SlashFree v → Readable w.store v)
      (fun w => ∀ v, SlashFree v → Readable w.store v) := by
  have hsending : ∀ {m step stream w w'}, (∀ v, SlashFree v → Readable w.store v) →
      Fits False ctx.sendPolicy ctx.srcState m step → Sending env ctx step stream w w' →
      ∀ v, SlashFree v → Readable w'.store v := by
    intro m step stream w w' hw hf hs v hv bytes
    rw [hs.frame.store.outside _
      (metaKey_not_partsOf hv hctx.volume (hctx.snapshots _ hf.snap_mem))]
    exact hw v hv bytes
  apply KeepsSteps.invariant False.elim
  · intro m step stream w w' hw _ hf hs
    exact hsending hw hf hs
  · intro m step stream chunks now w w₁ w' hw _ hf hs ht v hv bytes
    have hw₁ := hsending hw hf hs.toSending v hv bytes
    rcases ht.store with hst | hst
    · rwa [hst]
    · rw [hst]
      by_cases hkey : metaKey v = metaKey ctx.volume
      · simp [hkey]
      · rwa [update_of_ne hkey]

end Runs

section Destination

variable {H : IncrementalHash} {Z : StreamCodec} {T : Transfer String C Bytes}
  {content : String → String → C} {w : World}

theorem restorableDest_new : RestorableDest H Z T content (World.start fun _ => none) :=
  ⟨⟨consistent_empty _ _, by simp [World.start]⟩,
    ⟨by simp [AllMeta, Persisted, World.start], by simp [World.start]⟩,
    fun _ _ => by simp [Readable, World.start]⟩

theorem RestorableDest.of_unchanged {w' : World} (h : RestorableDest H Z T content w)
    (hw : Unchanged w w') : RestorableDest H Z T content w' :=
  ⟨safe_observes w w' hw.1 hw.2 h.safe, alwaysMeta_observes _ w w' hw.1 hw.2 h.restorable,
    fun v hv => hw.1 ▸ h.readable v hv⟩

/-- A run, however it ends, leaves a destination that can be restored from, with all that was
recorded on it before. -/
theorem RestorableDest.run (h : RestorableDest H Z T content w) {i : Invocation}
    (hi : (Commands.run i).Permitted T content) :
    wp (i.run H Z.toStreamEncoder)
      (fun _ w' => RestorableDest H Z T content w' ∧ Keeps w.store w'.store)
      (fun _ w' => RestorableDest H Z T content w' ∧ Keeps w.store w'.store) w := by
  have hsafe : Preserves (fun w' => Safe H (Decodes Z T content) w' ∧ Keeps w.store w'.store)
      (i.run H Z.toStreamEncoder) := by
    have hobs : Observes fun w' => Safe H (Decodes Z T content) w' ∧ Keeps w.store w'.store :=
      fun u u' hs ht hu => ⟨safe_observes u u' hs ht hu.1, hs ▸ hu.2⟩
    apply run_preserves hobs
    intro ctx hctx
    obtain ⟨hsendable, hsends, -⟩ := hi ctx hctx
    exact runVolume_preserves hobs (keepsSteps_keeps hsendable
      fun archives step stream parts hfits hyields hclean hencodes =>
        hsends.decodes hfits hyields hclean hencodes)
  have hmeta : Preserves (AlwaysMeta fun _ archives => Restorable archives)
      (i.run H Z.toStreamEncoder) := by
    apply run_preserves (alwaysMeta_observes _)
    intro ctx hctx
    obtain ⟨hsendable, -, hdots⟩ := hi ctx hctx
    refine runVolume_preserves (alwaysMeta_observes _) (keepsSteps_alwaysMeta True
      (fun _ => hsendable.parsed) ⟨⟨.nil, by simp⟩, by simp⟩ (fun _ _ hr => hr.1.toWellFormed) ?_)
    intro m step chunks hr hfits
    refine ⟨hr.1.step hsendable.parsed hfits chunks, fun a ha => ?_⟩
    rcases (DestMeta.mem_addArchive m _ a).mp ha with rfl | ha
    · exact hdots _ hfits.snap_mem
    · exact hr.2 a ha
  have hread : Preserves (fun w' => ∀ v, SlashFree v → Readable w'.store v)
      (i.run H Z.toStreamEncoder) := by
    have hobs : Observes fun w' => ∀ v, SlashFree v → Readable w'.store v :=
      fun u u' hs _ hu v hv => hs ▸ hu v hv
    apply run_preserves hobs
    intro ctx hctx
    exact runVolume_preserves hobs (keepsSteps_readable (hi ctx hctx).1)
  exact wp_mono ((hsafe.and (hmeta.and hread)) w ⟨⟨h.safe, .refl _⟩, h.restorable, h.readable⟩)
    (fun _ _ h => ⟨⟨h.1.1, h.2.1, h.2.2⟩, h.1.2⟩) fun _ _ h => ⟨⟨h.1.1, h.2.1, h.2.2⟩, h.1.2⟩

end Destination

/-! ## The root between commands -/

theorem subvolumeName_eq_iff {v v' raw raw' : String} (h : '.' ∉ raw.toList)
    (h' : '.' ∉ raw'.toList) :
    subvolumeName v raw = subvolumeName v' raw' ↔ v = v' ∧ raw = raw' := by
  constructor
  · intro heq
    have hsplit : splitName (subvolumeName v raw) = some (v, raw) :=
      splitName_eq_some.mpr ⟨rfl, h⟩
    rw [heq, splitName_eq_some.mpr ⟨rfl, h'⟩] at hsplit
    obtain ⟨hv, hraw⟩ := Prod.mk.inj (Option.some.inj hsplit)
    exact ⟨hv.symm, hraw.symm⟩
  · rintro ⟨rfl, rfl⟩
    rfl

theorem closure_archived {archives : List VolumeArchive} {targets : String → Prop} {raw : String}
    (h : Closure (parentForest archives) targets raw) : raw ∈ raws archives := by
  obtain ⟨t, -, l, hl, hmem⟩ := h
  obtain ⟨k, hk, -⟩ := hl.of_mem hmem
  exact parentForest_ne_none.mp hk.present

/-- The root holds what the restores were for, and all of it is archived. -/
structure Settled (H : IncrementalHash) (Z : StreamCodec) (T : Transfer String C Bytes)
    (content : String → String → C) (commands : List Commands) (host : Host C) : Prop where
  dest : RestorableDest H Z T content host.world
  archived : ∀ volume raw, Commands.RestoredBy H Z T commands volume raw →
    SlashFree volume ∧ ∃ m, Persisted host.world.store volume m ∧ raw ∈ raws m.archives
  root : ∀ name c, host.root.lookup name = some c ↔ ∃ volume raw,
    Commands.RestoredBy H Z T commands volume raw ∧ name = subvolumeName volume raw ∧
      c = content volume raw

section Restores

variable {H : IncrementalHash} {Z : StreamCodec} {T : Transfer String C Bytes}
  {content : String → String → C} {commands : List Commands} {host : Host C}

theorem RestorableDest.raw_dotFree (h : RestorableDest H Z T content host.world)
    {volume raw : String} {m : DestMeta} (hm : Persisted host.world.store volume m)
    (hraw : raw ∈ raws m.archives) : '.' ∉ raw.toList := by
  obtain ⟨a, ha, rfl⟩ := mem_raws.mp hraw
  exact (h.restorable.store volume m hm).2 a ha

/-- What the root has under the name of an archive is that archive, restored. -/
theorem Settled.lookup_archived (h : Settled H Z T content commands host) {volume raw : String}
    {m : DestMeta} (hm : Persisted host.world.store volume m) (hraw : raw ∈ raws m.archives)
    {c : C} : host.root.lookup (subvolumeName volume raw) = some c ↔
      Commands.RestoredBy H Z T commands volume raw ∧ c = content volume raw := by
  rw [h.root]
  constructor
  · rintro ⟨volume', raw', hrestored, hname, rfl⟩
    obtain ⟨-, m', hm', hraw'⟩ := h.archived _ _ hrestored
    obtain ⟨rfl, rfl⟩ := (subvolumeName_eq_iff (h.dest.raw_dotFree hm hraw)
      (h.dest.raw_dotFree hm' hraw')).mp hname
    exact ⟨hrestored, rfl⟩
  · rintro ⟨hrestored, rfl⟩
    exact ⟨volume, raw, hrestored, rfl, rfl⟩

theorem settled_new : Settled H Z T content [] Host.new := by
  refine ⟨restorableDest_new, fun _ _ h => absurd h not_occurs_nil, fun name c => ?_⟩
  constructor
  · intro h
    simp [Host.new, Root.empty] at h
  · rintro ⟨_, _, h, -⟩
    exact absurd h not_occurs_nil

theorem restoredBy_concat {c : Commands} {volume raw : String} :
    Commands.RestoredBy H Z T (commands ++ [c]) volume raw ↔
      Commands.RestoredBy H Z T commands volume raw ∨
        c.Restores (Commands.runAll H Z T commands).world.store volume raw := occurs_concat

/-- What was archived is archived on any destination that keeps it. -/
theorem Settled.archived_keeps (h : Settled H Z T content commands host) {store : Store}
    (hk : Keeps host.world.store store) {volume raw : String}
    (hrestored : Commands.RestoredBy H Z T commands volume raw) :
    SlashFree volume ∧ ∃ m, Persisted store volume m ∧ raw ∈ raws m.archives := by
  obtain ⟨hv, m, hm, hraw⟩ := h.archived volume raw hrestored
  obtain ⟨m', hm', hgrown⟩ := hk.grown volume m hv hm
  obtain ⟨a, ha, rfl⟩ := mem_raws.mp hraw
  exact ⟨hv, m', hm', mem_raws.mpr ⟨a, hgrown.archives.subset ha, rfl⟩⟩

/-- A command that restores nothing leaves the root as it is. -/
theorem Settled.quiet (h : Settled H Z T content commands (Commands.runAll H Z T commands))
    {c : Commands} {host' : Host C} (hdest : RestorableDest H Z T content host'.world)
    (hkeeps : Keeps (Commands.runAll H Z T commands).world.store host'.world.store)
    (hroot : host'.root = (Commands.runAll H Z T commands).root)
    (hnone : ∀ volume raw,
      ¬ c.Restores (Commands.runAll H Z T commands).world.store volume raw) :
    Settled H Z T content (commands ++ [c]) host' := by
  have hsame : ∀ volume raw, Commands.RestoredBy H Z T (commands ++ [c]) volume raw ↔
      Commands.RestoredBy H Z T commands volume raw := by
    intro volume raw
    rw [restoredBy_concat, or_iff_left (hnone volume raw)]
  refine ⟨hdest, fun volume raw hrestored => ?_, fun name content' => ?_⟩
  · exact h.archived_keeps hkeeps ((hsame volume raw).mp hrestored)
  · simp only [hroot, h.root, hsame]

theorem Settled.unchanged (h : Settled H Z T content commands (Commands.runAll H Z T commands))
    {c : Commands} {host' : Host C}
    (hworld : Unchanged (Commands.runAll H Z T commands).world host'.world)
    (hroot : host'.root = (Commands.runAll H Z T commands).root)
    (hnone : ∀ volume raw,
      ¬ c.Restores (Commands.runAll H Z T commands).world.store volume raw) :
    Settled H Z T content (commands ++ [c]) host' :=
  h.quiet (h.dest.of_unchanged hworld) (hworld.1 ▸ Keeps.refl _) hroot hnone

/-- A restore that has nothing to select from, or selects nothing, is refused. -/
theorem restore_refused {env : Env} {volume : String} {snapshots : List String}
    {lo hi : Option String} {w : World} {root : Root String C} {e : Halt}
    (h : prepareRestore volume (destStateOn w.store volume) root.entries snapshots lo hi =
      .error e) :
    wp (restore Z T env volume snapshots lo hi) (fun _ st => st.root = root)
      (fun _ st => st.root = root) ⟨w, root, []⟩ := by
  unfold restore onWorld
  simp only [wp_bind, wp_zoom, wp_get, wp_liftExcept]
  refine wp_mono inspectDestVolume_returned ?_ fun _ _ _ => trivial
  rintro dest w' ⟨rfl, -, rfl⟩
  exact ⟨fun plan hplan => by simp [h] at hplan, fun _ _ => trivial⟩

theorem prepareRestore_refused {store : Store} {volume : String} {snapshots : List String}
    {lo hi : Option String} (hc : ∀ m, Persisted store volume m → Coherent m.archives)
    (h : ¬ ∃ m, Persisted store volume m ∧ Selectable m.archives snapshots lo hi)
    (entries : Finset String) :
    ∃ e, prepareRestore volume (destStateOn store volume) entries snapshots lo hi =
      .error e := by
  cases hdest : (destStateOn store volume).destMeta with
  | none => exact ⟨_, by simp only [prepareRestore, hdest]; rfl⟩
  | some m =>
    have hm := persisted_of_destMeta hdest
    obtain ⟨e, he⟩ := (prepareRestore_closure (hc m hm) volume entries snapshots lo hi).2
      fun hsel => h ⟨m, hm, hsel⟩
    exact ⟨_, destStateOn_persisted hm ▸ he⟩

/-- The closure of the selected archives is in the root after the restore, with what was there
before. -/
theorem Settled.restore (h : Settled H Z T content commands (Commands.runAll H Z T commands))
    {env : Env} {volume : String} {snapshot : List String} {lo hi : Option String} {m : DestMeta}
    (hv : SlashFree volume) (hm : Persisted (Commands.runAll H Z T commands).world.store volume m)
    (hsel : Selectable m.archives snapshot lo hi) {host' : Host C}
    (hworld : Unchanged (Commands.runAll H Z T commands).world host'.world)
    (hext : Root.Extends (subvolumeName volume) (content volume)
      (Closure (parentForest m.archives) (Selected m.archives snapshot lo hi))
      (Commands.runAll H Z T commands).root host'.root) :
    Settled H Z T content (commands ++ [.restore env volume snapshot lo hi]) host' := by
  have hnew : ∀ v raw, (Commands.restore env volume snapshot lo hi).Restores
      (Commands.runAll H Z T commands).world.store v raw ↔
      v = volume ∧ Closure (parentForest m.archives) (Selected m.archives snapshot lo hi) raw := by
    intro v raw
    constructor
    · rintro ⟨rfl, m', hm', -, hclosure⟩
      exact ⟨rfl, hm.unique hm' ▸ hclosure⟩
    · rintro ⟨rfl, hclosure⟩
      exact ⟨rfl, m, hm, hsel, hclosure⟩
  refine ⟨h.dest.of_unchanged hworld, fun v raw hrestored => ?_, fun name c => ?_⟩
  · rcases restoredBy_concat.mp hrestored with hold | hrestores
    · exact h.archived_keeps (hworld.1 ▸ Keeps.refl _) hold
    · obtain ⟨rfl, hclosure⟩ := (hnew v raw).mp hrestores
      exact ⟨hv, m, hworld.1 ▸ hm, closure_archived hclosure⟩
  · simp only [restoredBy_concat, hnew]
    by_cases hname : ∃ raw, Closure (parentForest m.archives)
        (Selected m.archives snapshot lo hi) raw ∧ name = subvolumeName volume raw
    · obtain ⟨raw, hclosure, rfl⟩ := hname
      rw [hext.has raw hclosure]
      constructor
      · intro hc
        exact ⟨volume, raw, Or.inr ⟨rfl, hclosure⟩, rfl, (Option.some.inj hc).symm⟩
      · rintro ⟨v, raw', hold | ⟨rfl, -⟩, heq, rfl⟩
        · have hlookup := (h.root _ _).mpr ⟨v, raw', hold, heq, rfl⟩
          rw [((h.lookup_archived hm (closure_archived hclosure)).mp hlookup).2]
        · rw [subvolumeName_injective v heq]
    · rw [hext.other name fun raw hclosure heq => hname ⟨raw, hclosure, heq⟩, h.root]
      constructor
      · rintro ⟨v, raw, hold, heq⟩
        exact ⟨v, raw, Or.inl hold, heq⟩
      · rintro ⟨v, raw, hold | ⟨rfl, hclosure⟩, heq, hc⟩
        · exact ⟨v, raw, hold, heq, hc⟩
        · exact absurd ⟨raw, hclosure, heq⟩ hname

/-- One command more, whichever it is and however it ends. -/
theorem Settled.command (h : Settled H Z T content commands (Commands.runAll H Z T commands))
    {c : Commands} (hc : c.Permitted T content) :
    wp (c.main H Z T) (fun _ => Settled H Z T content (commands ++ [c]))
      (fun _ => Settled H Z T content (commands ++ [c])) (Commands.runAll H Z T commands) := by
  have hquiet : ∀ {host' : Host C}, (∀ volume raw,
        ¬ c.Restores (Commands.runAll H Z T commands).world.store volume raw) →
      Unchanged (Commands.runAll H Z T commands).world host'.world →
      host'.root = (Commands.runAll H Z T commands).root →
      Settled H Z T content (commands ++ [c]) host' :=
    fun hnone hworld hroot => h.unchanged hworld hroot hnone
  have hrefl := Unchanged.refl (Commands.runAll H Z T commands).world
  cases c with
  | status i =>
    rw [Commands.main, wp_zoom]
    exact wp_mono (status_unchanged i.env i.config i.name ⟨_, []⟩ hrefl)
      (fun _ d hd => hquiet (fun _ _ h => h) hd rfl) fun _ d hd => hquiet (fun _ _ h => h) hd rfl
  | ls i restoreRoot =>
    rw [Commands.main, wp_bind, wp_get, wp_zoom]
    exact wp_mono (ls_unchanged i.env i.config i.name _ ⟨_, []⟩ hrefl)
      (fun _ d hd => hquiet (fun _ _ h => h) hd rfl) fun _ d hd => hquiet (fun _ _ h => h) hd rfl
  | run i =>
    rw [Commands.main, wp_zoom]
    exact wp_mono (h.dest.run hc) (fun _ w hw => h.quiet hw.1 hw.2 rfl fun _ _ h => h)
      fun _ w hw => h.quiet hw.1 hw.2 rfl fun _ _ h => h
  | dryrun i measureSend =>
    rw [Commands.main, wp_zoom]
    exact wp_mono (dryrun_unchanged i.env i.config i.name _ measureSend ⟨_, _, _, []⟩ hrefl)
      (fun _ d hd => hquiet (fun _ _ h => h) hd rfl) fun _ d hd => hquiet (fun _ _ h => h) hd rfl
  | dryRestore env volume snapshot lo hi =>
    rw [Commands.main, wp_bind, wp_zoom]
    exact wp_mono (dryrestore_unchanged ⟨env, restoreArchive Z T env, volume, snapshot, lo, hi⟩ _
      ⟨_, _, []⟩ ⟨hrefl, rfl⟩) (fun _ st hst => hquiet (fun _ _ h => h) hst.1 hst.2)
      fun _ st hst => hquiet (fun _ _ h => h) hst.1 hst.2
  | restore env volume snapshot lo hi =>
    rw [Commands.main, wp_zoom]
    have hworld := restore_unchanged env Z T volume snapshot lo hi
      ⟨_, (Commands.runAll H Z T commands).root, []⟩ hrefl
    by_cases hselect : ∃ m, Persisted (Commands.runAll H Z T commands).world.store volume m ∧
        Selectable m.archives snapshot lo hi
    · obtain ⟨m, hm, hsel⟩ := hselect
      rcases resolveTargets_cases m.archives snapshot lo hi with
        ⟨-, targets, htargets, hnames, -⟩ | ⟨hnot, -⟩
      · have hroot : ∀ a ∈ m.archives, ∀ c, (Commands.runAll H Z T commands).root.lookup
            (subvolumeName volume a.raw) = some c → c = content volume a.raw := fun a ha c hc =>
          ((h.lookup_archived hm (mem_raws.mpr ⟨a, ha, rfl⟩)).mp hc).2
        have hselected : (· ∈ targets.map Timestamp.raw) =
            Selected m.archives snapshot lo hi := funext fun name => propext (hnames name)
        exact wp_mono (wp_and (restore_spec (h.dest.restorable.store volume m hm).1 hm
            (h.dest.safe.store.intact volume m hc.2 hm) htargets hroot) hworld)
          (fun _ st hst => h.restore hc.2 hm hsel hst.2 (hselected ▸ hst.1.2))
          fun _ st hst => absurd hst.1.1 hc.1
      · exact absurd hsel hnot
    · obtain ⟨e, he⟩ := prepareRestore_refused
        (fun m hm => (h.dest.restorable.store volume m hm).1) hselect
        (Commands.runAll H Z T commands).root.entries
      have hnone : ∀ v raw, ¬ (Commands.restore env volume snapshot lo hi).Restores
          (Commands.runAll H Z T commands).world.store v raw := by
        rintro v raw ⟨-, m, hm, hsel, -⟩
        exact hselect ⟨m, hm, hsel⟩
      exact wp_mono (wp_and (restore_refused he) hworld)
        (fun _ st hst => hquiet hnone hst.2 hst.1) fun _ st hst => hquiet hnone hst.2 hst.1

theorem settled_runAll (hpermitted : ∀ c ∈ commands, c.Permitted T content) :
    Settled H Z T content commands (Commands.runAll H Z T commands) :=
  session_history (f := Commands.main H Z T) settled_new
    fun _ c hc hbefore => hbefore.command (hpermitted c hc)

end Restores

/-! ## What is restored, and what is said about it -/

/-- The table of a volume tells which archives have been restored. What it shows besides are
snapshots of volumes whose names continue its own. -/
structure TellsRestored (wasRestored : String → String → Prop) (dest : DestState) (volume : String)
    (rows : List (String × String)) : Prop where
  restored : ∀ raw, (subvolumeName volume raw, "restored") ∈ rows ↔ wasRestored volume raw
  notRestored : ∀ raw, (subvolumeName volume raw, "not-restored") ∈ rows ↔
    raw ∈ raws dest.archives ∧ ¬ wasRestored volume raw
  restoredOnly : ∀ name, (name, "restored-only") ∈ rows →
    ∃ other raw, other ≠ volume ∧ wasRestored other raw ∧ name = subvolumeName other raw

/-- Wherever no call fails, `ls --restore-root` prints such a table for every volume it visits. -/
def ListsRestored (wasRestored : String → String → Prop) (host : Host C) : Prop :=
  ∀ (i : Invocation) (sync : SyncSpec) (states : List (String × SourceState)),
    (∀ n, i.env.fault n = none) → i.env.inspectSource = .ok states →
    i.config.sync = some sync → i.name.all (· == sync.name) = true →
    (∀ ctx ∈ visited i.config i.name states, SlashFree ctx.volume) →
    ∃ rows : VolumeContext → List (String × String),
      wp (ls i.env i.config i.name (some host.entryNames))
        (fun _ d => d.printed = (visited i.config i.name states).flatMap (lsBlock rows))
        (fun _ _ => False) ⟨host.world, []⟩ ∧
      ∀ ctx ∈ visited i.config i.name states, TellsRestored wasRestored
        (destStateOn host.world.store ctx.volume) ctx.volume (rows ctx)

section Listing

variable {H : IncrementalHash} {Z : StreamCodec} {T : Transfer String C Bytes}
  {content : String → String → C} {commands : List Commands} {host : Host C}

theorem Host.mem_entryNames {name : String} :
    name ∈ host.entryNames ↔ ∃ c, host.root.lookup name = some c := by
  rw [entryNames, Finset.mem_sort, host.root.mem_entries, Option.isSome_iff_exists]

theorem archived_iff {store : Store} {volume raw : String} :
    raw ∈ raws (destStateOn store volume).archives ↔
      ∃ m, Persisted store volume m ∧ raw ∈ raws m.archives := by
  constructor
  · intro h
    cases hdest : (destStateOn store volume).destMeta with
    | none => simp [DestState.archives, hdest, raws] at h
    | some m =>
      have hm := persisted_of_destMeta hdest
      rw [destStateOn_persisted hm] at h
      exact ⟨m, hm, h⟩
  · rintro ⟨m, hm, hraw⟩
    rwa [destStateOn_persisted hm]

theorem Settled.mem_entryNames (h : Settled H Z T content commands host) {volume raw : String}
    (hraw : raw ∈ raws (destStateOn host.world.store volume).archives) :
    subvolumeName volume raw ∈ host.entryNames ↔
      Commands.RestoredBy H Z T commands volume raw := by
  obtain ⟨m, hm, hmem⟩ := archived_iff.mp hraw
  rw [Host.mem_entryNames]
  simp only [h.lookup_archived hm hmem]
  exact ⟨fun ⟨_, hrestored, _⟩ => hrestored, fun hrestored => ⟨_, hrestored, rfl⟩⟩

theorem Settled.tellsRestored (h : Settled H Z T content commands host) {volume : String}
    {rows : List (String × String)}
    (hrows : printRestoreTable volume (destStateOn host.world.store volume) host.entryNames =
      .ok rows) :
    TellsRestored (Commands.RestoredBy H Z T commands) (destStateOn host.world.store volume)
      volume rows := by
  obtain ⟨rows', hrows', hmem⟩ := printRestoreTable_spec volume
    (destStateOn host.world.store volume) host.entryNames
  obtain rfl : rows' = rows := Except.ok.inj (hrows'.symm.trans hrows)
  have hunique : ∀ {raw raw'}, subvolumeName volume raw = subvolumeName volume raw' → raw' = raw :=
    fun heq => (subvolumeName_injective volume heq).symm
  constructor
  · intro raw
    rw [hmem]
    constructor
    · rintro ⟨raw', hname, hrow⟩
      obtain rfl := hunique hname
      simp only [String.reduceEq, and_false, false_or, and_true] at hrow
      exact (h.mem_entryNames hrow.1).mp hrow.2
    · intro hrestored
      obtain ⟨-, m, hm, hraw⟩ := h.archived _ _ hrestored
      have harchived := archived_iff.mpr ⟨m, hm, hraw⟩
      exact ⟨raw, rfl, Or.inr (Or.inr ⟨harchived, (h.mem_entryNames harchived).mpr hrestored, rfl⟩)⟩
  · intro raw
    rw [hmem]
    constructor
    · rintro ⟨raw', hname, hrow⟩
      obtain rfl := hunique hname
      simp only [String.reduceEq, and_false, or_false, and_true] at hrow
      exact ⟨hrow.1, fun hrestored => hrow.2 ((h.mem_entryNames hrow.1).mpr hrestored)⟩
    · rintro ⟨harchived, hnot⟩
      exact ⟨raw, rfl, Or.inl ⟨harchived, fun hin => hnot ((h.mem_entryNames harchived).mp hin),
        rfl⟩⟩
  · intro name hrow
    obtain ⟨raw, rfl, hrow⟩ := (hmem name _).mp hrow
    simp only [String.reduceEq, and_false, false_or, or_false, and_true] at hrow
    obtain ⟨c, hc⟩ := Host.mem_entryNames.mp hrow.2
    obtain ⟨other, raw', hrestored, hname, -⟩ := (h.root _ _).mp hc
    refine ⟨other, raw', ?_, hrestored, hname⟩
    rintro rfl
    obtain ⟨-, m, hm, hraw⟩ := h.archived _ _ hrestored
    obtain rfl := hunique hname
    exact hrow.1 (archived_iff.mpr ⟨m, hm, hraw⟩)

/-- After any commands in any order, whether or not the runs among them have failed, the root
holds exactly the snapshots that the restores were for, with their content, and
`ls --restore-root` tells which archives these are. -/
theorem commands_restoreRoot (H : IncrementalHash) (Z : StreamCodec)
    (T : Transfer String C Bytes) (content : String → String → C) (commands : List Commands)
    (hpermitted : ∀ c ∈ commands, c.Permitted T content) :
    (∀ name c, (Commands.runAll H Z T commands).root.lookup name = some c ↔
      ∃ volume raw, Commands.RestoredBy H Z T commands volume raw ∧
        name = subvolumeName volume raw ∧ c = content volume raw) ∧
      ListsRestored (Commands.RestoredBy H Z T commands) (Commands.runAll H Z T commands) := by
  have hsettled := settled_runAll (H := H) (Z := Z) hpermitted
  refine ⟨hsettled.root, fun i sync states hfault hstates hsync hname hvolumes => ?_⟩
  have htables : ∀ ctx : VolumeContext, ∃ rows, printRestoreTable ctx.volume
      (destStateOn (Commands.runAll H Z T commands).world.store ctx.volume)
      (Commands.runAll H Z T commands).entryNames = .ok rows := by
    intro ctx
    obtain ⟨rows, hrows, -⟩ := printRestoreTable_spec ctx.volume _ _
    exact ⟨rows, hrows⟩
  choose rows hrows using htables
  refine ⟨rows, ?_, fun ctx _ => hsettled.tellsRestored (hrows ctx)⟩
  exact wp_mono_ok (ls_restoreRoot_spec hfault hstates hsync hname
    (fun ctx hctx => hsettled.dest.readable _ (hvolumes ctx hctx)) hrows) fun _ _ h => h.2

/-- A run that fails on the way, a restore of what it has archived, and the rest of both. -/
def busyDay : List Commands :=
  [.run (twoDaysSent.failingAt 14), .restore Env.calm "root" [] none none, .ls twoDaysSent true,
    .run (twoDaysSent.failingAt 100), .restore Env.calm "root" [] none none, .status twoDaysSent]

def afterBusyDay : Host UInt8 :=
  Commands.runAll .keepAll StreamCodec.identity byteTransfer busyDay

/-- What a run sends is the same whether or not it fails. -/
theorem twoDaysSent_permitted (n : ℕ) : (Commands.run (twoDaysSent.failingAt n)).Permitted
    byteTransfer fun v raw => byteContent (subvolumeName v raw) := by
  intro ctx hctx
  have hvisit : Visits (twoDays none).env (twoDays none).config ctx := ⟨hctx.visit⟩
  obtain ⟨hparsed, hv, hsnaps, -, hsrc⟩ := twoDays_visits hvisit
  refine ⟨⟨hv, hsnaps, hparsed⟩, ⟨fun s _ n _ => ?_, fun s _ p _ n _ => ?_⟩, ?_⟩
  · simp [Invocation.failingAt, twoDaysSent, stdoutPieces]
  · simp [Invocation.failingAt, twoDaysSent, stdoutPieces]
  · rw [hsrc]
    decide

theorem commands_restoreRoot_busyDay :
    ((∀ name c, afterBusyDay.root.lookup name = some c ↔ ∃ volume raw,
        Commands.RestoredBy .keepAll StreamCodec.identity byteTransfer busyDay volume raw ∧
          name = subvolumeName volume raw ∧ c = byteContent (subvolumeName volume raw)) ∧
      ListsRestored
        (Commands.RestoredBy .keepAll StreamCodec.identity byteTransfer busyDay) afterBusyDay) ∧
      afterBusyDay.root.lookup "root.20230102" = some 9 := by
  have hpermitted : ∀ c ∈ busyDay,
      c.Permitted byteTransfer fun v raw => byteContent (subvolumeName v raw) := by
    have hcalm : ¬ Env.calm.Faulty := by simp [Env.Faulty, Env.calm]
    have hroot : SlashFree "root" := by decide
    simp only [busyDay, List.forall_mem_cons, List.not_mem_nil, false_implies, implies_true]
    exact ⟨twoDaysSent_permitted 14, ⟨hcalm, hroot⟩, trivial, twoDaysSent_permitted 100,
      ⟨hcalm, hroot⟩, trivial, trivial⟩
  constructor
  · unfold afterBusyDay
    exact commands_restoreRoot .keepAll StreamCodec.identity byteTransfer
      (fun v raw => byteContent (subvolumeName v raw)) busyDay hpermitted
  · decide +kernel

end Listing

end Bbkar
