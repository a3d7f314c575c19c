import Bbkar.Durations
import Bbkar.LocalMeta
import Bbkar.PlanRun

/-!
# Paths as they are read

A destination is read through a storage library, which normalises every path before it looks
for the object: white space around the path goes, as do slashes before it and empty segments.
Object storage is written to through the same library, a local directory is written to with
`Path::join` and the path as it is. So what was written is found again where the library
keeps the path. It keeps the paths of volumes and snapshots with plain names, and for these a
run is the same with the library in between.
-/
namespace Bbkar
open Codec Effects Function Words

/-! ## Plain paths -/

/-- No white space around the path, no slash at either end, and no empty segment. -/
structure PlainPath (path : String) : Prop where
  first : ∃ c, path.toList.head? = some c ∧ c ≠ '/' ∧ isWhitespace c = false
  last : ∃ c, path.toList.getLast? = some c ∧ c ≠ '/' ∧ isWhitespace c = false
  segments : ¬ ['/', '/'] <:+: path.toList

/-- What is assumed of the library: it keeps plain paths. -/
def KeepsPlain (normalizePath : String → String) : Prop :=
  ∀ path, PlainPath path → normalizePath path = path

/-- A name that a directory of its own can have, without white space in front. -/
structure PlainVolume (volume : String) : Prop where
  slashFree : SlashFree volume
  first : ∃ c, volume.toList.head? = some c ∧ isWhitespace c = false
  noDots : volume ≠ "." ∧ volume ≠ ".."

/-- Inside a path white space does no harm. -/
structure PlainName (name : String) : Prop where
  slashFree : SlashFree name
  nonempty : name ≠ ""
  noDots : name ≠ "." ∧ name ≠ ".."

/-- The name of a file, which ends a path. -/
structure PlainFile (name : String) : Prop extends PlainName name where
  last : ∃ c, name.toList.getLast? = some c ∧ isWhitespace c = false

theorem any_not_isWhitespace {o : Option Char} :
    o.any (!isWhitespace ·) = true ↔ ∃ c, o = some c ∧ isWhitespace c = false := by
  simp [Option.any_eq_true]

instance (volume : String) : Decidable (PlainVolume volume) :=
  decidable_of_iff (SlashFree volume ∧ volume.toList.head?.any (!isWhitespace ·) = true ∧
    volume ≠ "." ∧ volume ≠ "..")
    ⟨fun h => ⟨h.1, any_not_isWhitespace.mp h.2.1, h.2.2⟩,
      fun h => ⟨h.1, any_not_isWhitespace.mpr h.2, h.3⟩⟩

instance (name : String) : Decidable (PlainName name) :=
  decidable_of_iff (SlashFree name ∧ name ≠ "" ∧ name ≠ "." ∧ name ≠ "..")
    ⟨fun h => ⟨h.1, h.2.1, h.2.2⟩, fun h => ⟨h.1, h.2, h.3⟩⟩

instance (name : String) : Decidable (PlainFile name) :=
  decidable_of_iff (PlainName name ∧ name.toList.getLast?.any (!isWhitespace ·) = true)
    ⟨fun h => ⟨h.1, any_not_isWhitespace.mp h.2⟩, fun h => ⟨h.1, any_not_isWhitespace.mpr h.2⟩⟩

theorem PlainVolume.toPlainName {volume : String} (h : PlainVolume volume) : PlainName volume := by
  refine ⟨h.slashFree, ?_, h.noDots⟩
  rintro rfl
  obtain ⟨c, hc, -⟩ := h.first
  exact absurd hc (by simp)

theorem PlainName.toList_ne_nil {name : String} (h : PlainName name) : name.toList ≠ [] :=
  fun hnil => h.nonempty (String.toList_eq_nil_iff.mp hnil)

/-- Joining at a slash makes no empty segment. -/
theorem not_double_append {a b : List Char} (ha : '/' ∉ a) (hb : b.head? ≠ some '/')
    (h : ¬ ['/', '/'] <:+: b) : ¬ ['/', '/'] <:+: a ++ '/' :: b := by
  induction a with
  | nil =>
    rw [List.nil_append, List.infix_cons_iff]
    rintro (hfront | hinside)
    · obtain ⟨t, ht⟩ := (List.cons_prefix_cons.mp hfront).2
      exact hb (by rw [← ht]; rfl)
    · exact h hinside
  | cons x xs ih =>
    rw [List.cons_append, List.infix_cons_iff]
    rintro (hfront | hinside)
    · exact ha ((List.cons_prefix_cons.mp hfront).1 ▸ List.mem_cons_self)
    · exact ih (fun hm => ha (List.mem_cons_of_mem _ hm)) hinside

theorem not_double_of_slashFree {a : List Char} (ha : '/' ∉ a) : ¬ ['/', '/'] <:+: a :=
  fun h => ha (h.subset (by simp))

theorem head?_ne_slash {a b : List Char} (ha : '/' ∉ a) (hne : a ≠ []) :
    (a ++ b).head? ≠ some '/' := by
  rw [List.head?_append_of_ne_nil _ hne]
  exact fun h => ha (List.mem_of_head? h)

/-- A directory with a plain name and a path inside of it make a plain path. -/
theorem plainPath_of_toList {path volume : String} {rest : List Char} (hv : PlainVolume volume)
    (hpath : path.toList = volume.toList ++ '/' :: rest) (hne : rest ≠ [])
    (hlast : ∃ c, rest.getLast? = some c ∧ c ≠ '/' ∧ isWhitespace c = false)
    (hfirst : rest.head? ≠ some '/') (hrest : ¬ ['/', '/'] <:+: rest) : PlainPath path := by
  obtain ⟨c, hc, hspace⟩ := hv.first
  have hslash : c ≠ '/' := fun h => hv.slashFree (h ▸ List.mem_of_head? hc)
  refine ⟨⟨c, ?_, hslash, hspace⟩, ?_, ?_⟩
  · rw [hpath, List.head?_append_of_ne_nil _ hv.toPlainName.toList_ne_nil, hc]
  · rw [hpath, List.getLast?_append_of_ne_nil _ (by simp), List.getLast?_cons_of_ne_nil hne]
    exact hlast
  · rw [hpath]
    exact not_double_append hv.slashFree hfirst hrest

theorem PlainFile.getLast {name : String} (h : PlainFile name) :
    ∃ c, name.toList.getLast? = some c ∧ c ≠ '/' ∧ isWhitespace c = false := by
  obtain ⟨c, hc, hspace⟩ := h.last
  exact ⟨c, hc, fun he => h.slashFree (he ▸ List.mem_of_getLast? hc), hspace⟩

theorem plainFile_metaFilename : PlainFile metaFilename := by decide

theorem plainFile_partFilename (n : ℕ) : PlainFile (partFilename n) := by
  have hlast : (partFilename n).toList.getLast? = some 'd' := by
    rw [partFilename, String.toList_append, List.getLast?_append_of_ne_nil _ (by decide)]
    rfl
  have hhead : (partFilename n).toList.head? = some 'p' := by simp [partFilename]
  refine ⟨⟨slashFree_partFilename n, ?_, ?_, ?_⟩, 'd', hlast, by decide⟩
  · rintro h
    simp [h] at hhead
  · rintro h
    simp [h] at hhead
  · rintro h
    simp [h] at hhead

/-- The paths of metadata and of the files of snapshots are plain. -/
theorem plainPath_metaKey {volume : String} (h : PlainVolume volume) :
    PlainPath (metaKey volume) := by
  have hfile := plainFile_metaFilename
  have hne : metaFilename.toList ≠ [] := hfile.toList_ne_nil
  refine plainPath_of_toList h (pathInVolume_toList h.slashFree hfile.slashFree) hne
    hfile.getLast ?_ (not_double_of_slashFree hfile.slashFree)
  simpa using head?_ne_slash (b := []) hfile.slashFree hne

theorem plainPath_pathInSnapshot {volume snapshot name : String} (hv : PlainVolume volume)
    (hs : PlainName snapshot) (hn : PlainFile name) :
    PlainPath (pathInSnapshot volume snapshot name) := by
  have hne : name.toList ≠ [] := hn.toList_ne_nil
  refine plainPath_of_toList hv
    (pathInSnapshot_toList hv.slashFree hs.slashFree hn.slashFree) (by simp) ?_
    (head?_ne_slash hs.slashFree hs.toList_ne_nil) ?_
  · rw [List.getLast?_append_of_ne_nil _ (by simp), List.getLast?_cons_of_ne_nil hne]
    exact hn.getLast
  · apply not_double_append hs.slashFree _ (not_double_of_slashFree hn.slashFree)
    simpa using head?_ne_slash (b := []) hn.slashFree hne

/-! ## Local files -/

/-- `snapshot_dir.join(filename)` of `open_next_chunk`. -/
def partPath (root volume snapshot filename : String) : String :=
  joinPath (joinPath (volumeDir root volume) snapshot) filename

theorem joinPath_joinPath {root path name : String} (hpath : PlainName path)
    (hname : SlashFree name) :
    (joinPath (joinPath root path) name).toList =
      slashed root.toList ++ (path.toList ++ '/' :: name.toList) := by
  rw [joinPath_toList (slashFree_head hname), joinPath_toList (slashFree_head hpath.slashFree),
    slashed_append hpath.slashFree hpath.toList_ne_nil]
  simp

/-- The library looks for metadata in the file that the local branch has written. -/
theorem metaPath_read {normalizePath : String → String} (h : KeepsPlain normalizePath)
    (root : String) {volume : String} (hv : PlainVolume volume) :
    joinPath root (normalizePath (metaKey volume)) = metaPath root volume := by
  rw [h _ (plainPath_metaKey hv), metaPath, volumeDir, ← String.toList_inj,
    joinPath_joinPath hv.toPlainName slashFree_metaFilename, joinPath_toList]
  · rw [metaKey, pathInVolume_toList hv.slashFree slashFree_metaFilename]
  · rw [metaKey, pathInVolume_toList hv.slashFree slashFree_metaFilename]
    exact head?_ne_slash hv.slashFree hv.toPlainName.toList_ne_nil

theorem partPath_read {normalizePath : String → String} (h : KeepsPlain normalizePath)
    (root : String) {volume snapshot name : String} (hv : PlainVolume volume)
    (hs : PlainName snapshot) (hn : PlainFile name) :
    joinPath root (normalizePath (pathInSnapshot volume snapshot name)) =
      partPath root volume snapshot name := by
  have hkey := pathInSnapshot_toList hv.slashFree hs.slashFree hn.slashFree
  rw [h _ (plainPath_pathInSnapshot hv hs hn), ← String.toList_inj, joinPath_toList, hkey, partPath,
    volumeDir, joinPath_toList (slashFree_head hn.slashFree), joinPath_joinPath hv.toPlainName
      hs.slashFree]
  · have hdir : slashed (slashed root.toList ++ (volume.toList ++ '/' :: snapshot.toList)) =
        slashed root.toList ++ (volume.toList ++ '/' :: snapshot.toList) ++ ['/'] := by
      have happend := @slashed_append (slashed root.toList ++ volume.toList ++ ['/']) _
        hs.slashFree hs.toList_ne_nil
      simpa using happend
    rw [hdir]
    simp
  · rw [hkey]
    exact head?_ne_slash hv.slashFree hv.toPlainName.toList_ne_nil

/-- The path of the metadata of a volume, or of a part file, with plain names. -/
def PlainKey (key : String) : Prop :=
  (∃ volume, PlainVolume volume ∧ key = metaKey volume) ∨
    ∃ volume snapshot n, PlainVolume volume ∧ PlainName snapshot ∧ key = partKey volume snapshot n

/-- The library keeps the path, and under any root it is the file that the local branch opens. -/
def FoundWhereWritten (normalizePath : String → String) (key : String) : Prop :=
  normalizePath key = key ∧
    ((∃ volume, key = metaKey volume ∧
        ∀ root, joinPath root (normalizePath key) = metaPath root volume) ∨
      ∃ volume snapshot n, key = partKey volume snapshot n ∧
        ∀ root, joinPath root (normalizePath key) =
          partPath root volume snapshot (partFilename n))

theorem PlainKey.found {normalizePath : String → String} (h : KeepsPlain normalizePath)
    {key : String} (hkey : PlainKey key) : FoundWhereWritten normalizePath key := by
  rcases hkey with ⟨v, hv, rfl⟩ | ⟨v, s, n, hv, hs, rfl⟩
  · exact ⟨h _ (plainPath_metaKey hv), Or.inl ⟨v, rfl, fun root => metaPath_read h root hv⟩⟩
  · have hfile := plainFile_partFilename n
    exact ⟨h _ (plainPath_pathInSnapshot hv hs hfile),
      Or.inr ⟨v, s, n, rfl, fun root => partPath_read h root hv hs hfile⟩⟩

/-! ## Runs that read through the library -/

section Runs

variable (normalizePath : String → String)

/-- The objects as the library finds them. -/
def World.through (w : World) : World :=
  { World.start fun key => w.store (normalizePath key) with
    calls := w.calls
    sent := w.sent
    remote := w.remote
    totalBytesSent := w.totalBytesSent }

/-- `inspect_dest_volume` with the path it reads. -/
def inspectDestVolumeAt (env : Env) (volume : String) : Act DestState := do
  let _ ← call env
  let w ← get
  match w.store (normalizePath (metaKey volume)) with
  | none => return ⟨none⟩
  | some (.metadata m) => return ⟨some m.reload⟩
  | some (.part _) => throw (.err (.yaml "invalid metadata"))

def runVolumeAt (H : IncrementalHash) (Z : StreamEncoder) (env : Env) (ctx : VolumeContext) :
    Act Unit := do
  let destState ← inspectDestVolumeAt normalizePath env ctx.volume
  let plan ← liftExcept (buildPlan ctx.srcState destState ctx.sendPolicy)
  let destMeta ← executePlan H Z env ctx destState plan
  modify fun w => { w with remote := w.remote.merge (ArchiveStats.fromMeta destMeta) }

def runSyncAt (H : IncrementalHash) (Z : StreamEncoder) (env : Env) (config : Config)
    (sync : SyncSpec) : Act Unit := do
  modify fun w => { w with sent := ArchiveStats.default, remote := ArchiveStats.default }
  let _ ← call env
  let states ← liftExcept env.inspectSource
  states.forM fun state =>
    if sync.filter.any (wildcardMatch · state.1) then
      runVolumeAt normalizePath H Z env
        ⟨config.backend, config.maxBackupChunkSize, state.1, state.2, sync.send⟩
    else return

/-- `run`, which reads nothing on the destination but metadata. -/
def runAt (H : IncrementalHash) (Z : StreamEncoder) (env : Env) (config : Config)
    (name : Option String) : Act Unit := do
  modify fun w => { w with totalBytesSent := 0 }
  match name, config.sync with
  | none, none => return
  | none, some sync => runSyncAt normalizePath H Z env config sync
  | some name, none => throw (.err (syncNotFound config name))
  | some name, some sync =>
    if name = sync.name then runSyncAt normalizePath H Z env config sync
    else throw (.err (syncNotFound config name))

def Invocation.runAt (H : IncrementalHash) (Z : StreamEncoder) (i : Invocation) : Act Unit :=
  Bbkar.runAt normalizePath H Z i.env i.config i.name

def historyAt (H : IncrementalHash) (Z : StreamEncoder) (runs : List Invocation) (w : World) :
    World :=
  session (runs.map (Invocation.runAt normalizePath H Z)) w

end Runs

section Plain

variable {normalizePath : String → String} {H : IncrementalHash} {Z : StreamEncoder} {env : Env}
  {config : Config}

theorem inspectDestVolumeAt_plain (h : KeepsPlain normalizePath) {volume : String}
    (hv : PlainVolume volume) :
    inspectDestVolumeAt normalizePath env volume = inspectDestVolume env volume := by
  unfold inspectDestVolumeAt
  rw [h _ (plainPath_metaKey hv)]
  rfl

theorem runVolumeAt_plain (h : KeepsPlain normalizePath) {ctx : VolumeContext}
    (hv : PlainVolume ctx.volume) :
    runVolumeAt normalizePath H Z env ctx = runVolume H Z env ctx := by
  unfold runVolumeAt runVolume
  rw [inspectDestVolumeAt_plain h hv]

theorem forM_congr {ε σ α : Type} {f g : α → Exec ε σ PUnit} {xs : List α}
    (h : ∀ a ∈ xs, f a = g a) : xs.forM f = xs.forM g := by
  induction xs with
  | nil => rfl
  | cons a xs ih =>
    have htail := ih fun b hb => h b (List.mem_cons_of_mem _ hb)
    change (f a >>= fun _ => xs.forM f) = g a >>= fun _ => xs.forM g
    rw [h a (by simp), htail]

theorem liftExcept_error_bind {ε σ α β : Type} (e : ε) (f : α → Exec ε σ β) :
    (liftExcept (.error e) >>= f : Exec ε σ β) = throw e := rfl

theorem runSyncAt_plain (h : KeepsPlain normalizePath) {sync : SyncSpec}
    (hsync : config.sync = some sync)
    (hv : ∀ ctx, Visits env config ctx → PlainVolume ctx.volume) :
    runSyncAt normalizePath H Z env config sync = runSync H Z env config sync := by
  unfold runSyncAt runSync
  cases hstates : env.inspectSource with
  | error e => simp only [liftExcept_error_bind]
  | ok states =>
    have hloop : (states.forM fun state : String × SourceState =>
        if sync.filter.any (wildcardMatch · state.1) then
          runVolumeAt normalizePath H Z env
            ⟨config.backend, config.maxBackupChunkSize, state.1, state.2, sync.send⟩
        else return) = states.forM fun state =>
        if sync.filter.any (wildcardMatch · state.1) then
          runVolume H Z env
            ⟨config.backend, config.maxBackupChunkSize, state.1, state.2, sync.send⟩
        else return := by
      apply forM_congr
      intro state hstate
      split_ifs with hfilter
      · exact runVolumeAt_plain h
          (hv _ ⟨sync, states, hsync, hstates, hstate, hfilter, rfl, rfl, rfl⟩)
      · rfl
    simp only [liftExcept, pure_bind, hloop]

/-- With plain names the library makes no difference to a run. -/
theorem runAt_plain (h : KeepsPlain normalizePath) (name : Option String)
    (hv : ∀ ctx, Visits env config ctx → PlainVolume ctx.volume) :
    runAt normalizePath H Z env config name = run H Z env config name := by
  unfold runAt run
  cases hs : config.sync with
  | none => cases name <;> rfl
  | some sync => cases name <;> simp only [runSyncAt_plain h hs hv]

theorem historyAt_plain (h : KeepsPlain normalizePath) (runs : List Invocation)
    (hv : ∀ i ∈ runs, ∀ ctx, Visits i.env i.config ctx → PlainVolume ctx.volume) (w : World) :
    historyAt normalizePath H Z runs w = history H Z runs w := by
  have hmap : runs.map (Invocation.runAt normalizePath H Z) = runs.map (Invocation.run H Z) :=
    List.map_congr_left fun i hi => runAt_plain h i.name (hv i hi)
  rw [historyAt, history, hmap]

/-- What the library finds is what is there. -/
theorem through_metaKey (h : KeepsPlain normalizePath) {volume : String} (hv : PlainVolume volume)
    (w : World) : (w.through normalizePath).store (metaKey volume) = w.store (metaKey volume) :=
  congrArg w.store (h _ (plainPath_metaKey hv))

end Plain

/-! ## A library -/

/-- White space is taken off at both ends, and then slashes in front. -/
def trimPath (path : String) : String :=
  String.ofList ((trim isWhitespace path.toList).dropWhile (· == '/'))

theorem trimPath_keepsPlain : KeepsPlain trimPath := by
  rintro path ⟨⟨c, hc, hslash, hspace⟩, ⟨d, hd, -, hspace'⟩, -⟩
  have hne : path.toList ≠ [] := by
    rintro hnil
    simp [hnil] at hc
  obtain ⟨cs, hcs⟩ : ∃ cs, path.toList = c :: cs := List.head?_eq_some_iff.mp hc
  have htrim : trim isWhitespace path.toList = path.toList := by
    rw [trim, hcs, List.dropWhile_cons_of_neg (by simp [hspace]), ← hcs,
      List.rdropWhile_eq_self_iff]
    intro hl
    rw [List.getLast?_eq_some_getLast hl] at hd
    rw [Option.some.inj hd, hspace']
    simp
  rw [trimPath, htrim, hcs, List.dropWhile_cons_of_neg (by simp [hslash]), ← hcs,
    String.ofList_toList]

end Bbkar
