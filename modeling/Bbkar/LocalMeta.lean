import Bbkar.ChunkedWriter
import Bbkar.Files
import Mathlib.Logic.Relation

/-!
# Metadata on a local destination

Translation of the local branch of `write_metadata_to_dest`: directories are made, the text
is written to a temporary file, and that file is renamed. Metadata writes of any number of
processes, stopped at any system call, are a replacement of files by renaming, so the
destination shows one whole text after the other while no two writes for the same volume
are under way.
-/
namespace Bbkar
open Codec Effects Function Files

/-! ## Paths -/

/-- `Path::join`: an absolute name replaces the base. -/
def joinPath (base name : String) : String :=
  if name.toList.head? = some '/' then name
  else if base.toList = [] ∨ base.toList.getLast? = some '/' then base ++ name
  else base ++ "/" ++ name

def volumeDir (root volume : String) : String := joinPath root volume

def metaPath (root volume : String) : String := joinPath (volumeDir root volume) metaFilename

def tmpFilename : String := ".bbkar-meta.yaml.tmp"

def tmpPath (root volume : String) : String := joinPath (volumeDir root volume) tmpFilename

/-- A base as it stands in front of a relative name. -/
def slashed (base : List Char) : List Char :=
  if base = [] ∨ base.getLast? = some '/' then base else base ++ ['/']

theorem joinPath_toList {base name : String} (h : name.toList.head? ≠ some '/') :
    (joinPath base name).toList = slashed base.toList ++ name.toList := by
  unfold joinPath slashed
  rw [if_neg h]
  split_ifs <;> simp

theorem joinPath_getLast (base : String) {name : String} (h : name.toList.head? ≠ some '/')
    (hname : name.toList ≠ []) :
    (joinPath base name).toList.getLast? = name.toList.getLast? := by
  rw [joinPath_toList h, List.getLast?_append_of_ne_nil _ hname]

/-- Temporary names end differently. -/
theorem tmpPath_ne_metaPath (root volume root' volume' : String) :
    tmpPath root volume ≠ metaPath root' volume' := by
  intro h
  have hl := congrArg (fun s => s.toList.getLast?) h
  simp only [tmpPath, metaPath] at hl
  rw [joinPath_getLast _ (by decide) (by decide), joinPath_getLast _ (by decide) (by decide)] at hl
  exact absurd hl (by decide)

theorem slashed_slashed (base : List Char) : slashed (slashed base) = slashed base := by
  unfold slashed
  split_ifs <;> simp_all

theorem slashed_append {base name : List Char} (h : '/' ∉ name) (hname : name ≠ []) :
    slashed (base ++ name) = base ++ name ++ ['/'] := by
  unfold slashed
  rw [if_neg]
  rintro (hnil | hlast)
  · exact hname (List.append_eq_nil_iff.mp hnil).2
  · rw [List.getLast?_append_of_ne_nil _ hname] at hlast
    exact h (List.mem_of_getLast? hlast)

theorem slashFree_head {s : String} (h : SlashFree s) : s.toList.head? ≠ some '/' :=
  fun hs => h (List.mem_of_head? hs)

theorem metaPath_toList {volume : String} (root : String) (hv : SlashFree volume) :
    (metaPath root volume).toList =
      slashed (slashed root.toList ++ volume.toList) ++ metaFilename.toList := by
  rw [metaPath, volumeDir, joinPath_toList (by decide), joinPath_toList (slashFree_head hv)]

/-- Volumes without a slash in their names have metadata files of their own. -/
theorem metaPath_injective {root volume volume' : String} (hv : SlashFree volume)
    (hv' : SlashFree volume') (h : metaPath root volume = metaPath root volume') :
    volume = volume' := by
  have hl := congrArg String.toList h
  rw [metaPath_toList root hv, metaPath_toList root hv', List.append_cancel_right_eq] at hl
  have hdir : ∀ {v : String}, SlashFree v → v.toList ≠ [] →
      slashed (slashed root.toList ++ v.toList) = slashed root.toList ++ v.toList ++ ['/'] :=
    fun hv hne => slashed_append hv hne
  by_cases hnil : volume.toList = [] <;> by_cases hnil' : volume'.toList = []
  · exact String.toList_inj.mp (hnil.trans hnil'.symm)
  · rw [hnil, List.append_nil, slashed_slashed, hdir hv' hnil'] at hl
    have := congrArg List.length hl
    simp at this
  · rw [hnil', List.append_nil, slashed_slashed, hdir hv hnil] at hl
    have := congrArg List.length hl
    simp at this
  · rw [hdir hv hnil, hdir hv' hnil', List.append_cancel_right_eq,
      List.append_cancel_left_eq] at hl
    exact String.toList_inj.mp hl

/-! ## The write -/

structure Disk where
  files : FileSystem UInt8
  calls : ℕ

def Disk.tick (d : Disk) : Disk := { d with calls := d.calls + 1 }

/-- A system call, which returns its number unless it fails or the process ends there. -/
def sysCall (env : Env) : Exec Halt Disk ℕ := do
  let d ← get
  modify Disk.tick
  match env.fault d.calls with
  | some h => throw h
  | none => return d.calls

/-- `write_all` on a file: each call takes a part of what is left. The fuel is its length. -/
def writeFile (env : Env) (n : ℕ) : ℕ → ℕ → Bytes → Exec Halt Disk Unit
  | fuel, offset, buf =>
    if buf = [] then return
    else do
      let k ← sysCall env
      let written := ChunkOutput.accepted env k buf
      modify fun d => { d with files := d.files.write n offset (buf.take written) }
      match fuel with
      | 0 => throw .diverges
      | fuel + 1 => writeFile env n fuel (offset + written) (buf.drop written)

/-- `fs::rename`. -/
def renameFile (env : Env) (source target : String) : Exec Halt Disk Unit := do
  let _ ← sysCall env
  let d ← get
  match d.files.rename source target with
  | some files => modify fun d => { d with files := files }
  | none => throw (.err (.io "No such file or directory (os error 2)"))

/-- `write_metadata_to_dest` for a local destination, with the text to write. -/
def writeMetadataToDest (env : Env) (root volume : String) (text : Bytes) :
    Exec Halt Disk Unit := do
  let _ ← sysCall env
  let _ ← sysCall env
  let d ← get
  let (files, n) := d.files.create (tmpPath root volume)
  modify fun d => { d with files := files }
  writeFile env n text.length 0 text
  renameFile env (tmpPath root volume) (metaPath root volume)

theorem wp_sysCall {env : Env} {Q : ℕ → Disk → Prop} {E : Halt → Disk → Prop} {d : Disk} :
    wp (sysCall env) Q E d ↔
      (env.fault d.calls = none → Q d.calls d.tick) ∧
        ∀ h, env.fault d.calls = some h → E h d.tick := by
  unfold sysCall
  simp only [wp_bind, wp_get, wp_modify]
  cases env.fault d.calls <;> simp

/-! ## What a write leaves -/

section Moves

variable {ι : Type} [DecidableEq ι] {writer : ι → Writer UInt8} {env : Env} {i : ι}
  {s₀ s : Replacing ι UInt8} {renamed : List ι} {d : Disk}

/-- The files of `d` after moves that have brought the writer to a stage, and no other
anywhere. -/
def Reaches (writer : ι → Writer UInt8) (s₀ s : Replacing ι UInt8) (i : ι) (renamed : List ι)
    (stage : Stage UInt8) (d : Disk) : Prop :=
  ∃ s', Run writer s₀ renamed s' ∧ s'.files = d.files ∧ s'.stage = update s.stage i stage

theorem Reaches.stop {stage : Stage UInt8} (h : Reaches writer s₀ s i renamed stage d) :
    Reaches writer s₀ s i renamed .stopped d := by
  obtain ⟨s', hrun, hfiles, hstage⟩ := h
  exact ⟨_, hrun.stop (.stop (i := i)), hfiles, by simp [Replacing.advance, hstage]⟩

theorem Reaches.tick {stage : Stage UInt8} (h : Reaches writer s₀ s i renamed stage d) :
    Reaches writer s₀ s i renamed stage d.tick := h

/-- Writing the rest of the text, piece by piece. -/
theorem writeFile_reaches {n fuel : ℕ} {done buf : Bytes} (hfuel : buf.length ≤ fuel)
    (htext : done ++ buf = (writer i).data)
    (h : Reaches writer s₀ s i renamed (.writing n done) d) :
    wp (writeFile env n fuel done.length buf)
      (fun _ => Reaches writer s₀ s i renamed (.writing n (writer i).data))
      (fun _ => Reaches writer s₀ s i renamed .stopped) d := by
  induction fuel generalizing done buf d with
  | zero =>
    obtain rfl := List.length_eq_zero_iff.mp (Nat.le_zero.mp hfuel)
    rw [List.append_nil] at htext
    unfold writeFile
    rw [if_pos rfl, ← htext]
    exact h
  | succ fuel ih =>
    unfold writeFile
    split_ifs with hbuf
    · rw [hbuf, List.append_nil] at htext
      rw [← htext]
      exact h
    · simp only [wp_bind, wp_sysCall, wp_modify]
      refine ⟨fun _ => ?_, fun _ _ => h.tick.stop⟩
      have hpos := List.length_pos_iff.mpr hbuf
      have htaken : ChunkOutput.accepted env d.calls buf ≤ buf.length := Nat.min_le_left _ _
      have hsome : 0 < ChunkOutput.accepted env d.calls buf := by
        simp only [ChunkOutput.accepted]
        omega
      have hlength : (done ++ buf.take (ChunkOutput.accepted env d.calls buf)).length =
          done.length + ChunkOutput.accepted env d.calls buf := by
        rw [List.length_append, List.length_take, Nat.min_eq_left htaken]
      rw [← hlength]
      refine ih (by rw [List.length_drop]; omega) (by simpa using htext) ?_
      obtain ⟨s', hrun, hfiles, hstage⟩ := h
      refine ⟨_, hrun.write (.write (buf.take (ChunkOutput.accepted env d.calls buf))
        (by rw [hstage, update_self]) ?_), by rw [Replacing.advance_files, hfiles]; rfl, ?_⟩
      · exact ⟨buf.drop (ChunkOutput.accepted env d.calls buf), by simpa using htext⟩
      · simp [Replacing.advance, hstage]

/-- A metadata write opens its temporary file, fills it and renames it, and has renamed it
just when it returns. -/
theorem writeMetadataToDest_reaches {root volume : String}
    (hrun : Run writer s₀ renamed s) (htemp : (writer i).temp = tmpPath root volume)
    (htarget : (writer i).target = metaPath root volume) (hwaiting : s.stage i = .waiting)
    (halone : ∀ j, (writer j).temp = (writer i).temp → ¬ s.Open j) (hd : s.files = d.files) :
    wp (writeMetadataToDest env root volume (writer i).data)
      (fun _ => Reaches writer s₀ s i (renamed ++ [i]) .renamed)
      (fun _ => Reaches writer s₀ s i renamed .stopped) d := by
  have hstart : Reaches writer s₀ s i renamed .waiting d :=
    ⟨s, hrun, hd, by rw [← hwaiting, update_eq_self]⟩
  unfold writeMetadataToDest
  simp only [wp_bind, wp_sysCall, wp_get, wp_modify]
  refine ⟨fun _ => ⟨fun _ => ?_, fun _ _ => hstart.tick.tick.stop⟩, fun _ _ => hstart.tick.stop⟩
  have hopened : Reaches writer s₀ s i renamed
      (.writing (d.files.create (tmpPath root volume)).2 [])
      { d.tick.tick with files := (d.files.create (tmpPath root volume)).1 } := by
    refine ⟨_, hrun.create halone (.create hwaiting), by rw [Replacing.advance_files, hd, htemp],
      by simp [Replacing.advance, hd, htemp]⟩
  refine wp_mono_ok (writeFile_reaches le_rfl rfl hopened) ?_
  rintro _ d₂ ⟨s₂, hrun₂, hfiles₂, hstage₂⟩
  have hwritten : Reaches writer s₀ s i renamed
      (.writing (d.files.create (tmpPath root volume)).2 (writer i).data) d₂ :=
    ⟨s₂, hrun₂, hfiles₂, hstage₂⟩
  have hself : s₂.stage i = .writing (d.files.create (tmpPath root volume)).2 (writer i).data := by
    rw [hstage₂, update_self]
  unfold renameFile
  simp only [wp_bind, wp_sysCall, wp_get]
  refine ⟨fun _ => ?_, fun _ _ => hwritten.tick.stop⟩
  cases hrename : d₂.tick.files.rename (tmpPath root volume) (metaPath root volume) with
  | some files =>
    refine ⟨_, hrun₂.rename (.rename hself ?_), rfl, ?_⟩
    · rw [htemp, htarget, hfiles₂]
      exact hrename
    · simp [Replacing.advance, hstage₂]
  | none => exact hwritten.tick.stop

end Moves

/-! ## Whole texts -/

/-- A metadata write, by any process. -/
structure MetaWrite where
  volume : String
  destMeta : DestMeta

def MetaWrite.writer (root : String) (text : DestMeta → Bytes) (write : MetaWrite) :
    Writer UInt8 :=
  ⟨tmpPath root write.volume, metaPath root write.volume, text write.destMeta⟩

/-- The metadata files of a local destination are those of the store. -/
def Shows (root : String) (text : DestMeta → Bytes) (files : FileSystem UInt8) (store : Store) :
    Prop :=
  ∀ volume, SlashFree volume →
    files.read (metaPath root volume) = (destStateOn store volume).destMeta.map text

section Whole

variable {ι : Type} [DecidableEq ι] {root : String} {text : DestMeta → Bytes}
  {writes : ι → MetaWrite}

/-- The store after these writes, each made at once. -/
def storeAfter (writes : ι → MetaWrite) (store : Store) (renamed : List ι) : Store :=
  renamed.foldl
    (fun store i => update store (metaKey (writes i).volume) (some (.metadata (writes i).destMeta)))
    store

omit [DecidableEq ι] in
theorem registers_shows (hv : ∀ i, SlashFree (writes i).volume) (renamed : List ι)
    {r : String → Option Bytes} {store : Store} (h : ∀ volume, SlashFree volume →
      r (metaPath root volume) = (destStateOn store volume).destMeta.map text)
    {volume : String} (hvolume : SlashFree volume) :
    registers (fun i => (writes i).writer root text) r renamed (metaPath root volume) =
      (destStateOn (storeAfter writes store renamed) volume).destMeta.map text := by
  induction renamed generalizing r store with
  | nil => exact h volume hvolume
  | cons i renamed ih =>
    refine ih fun v hvol => ?_
    by_cases heq : v = (writes i).volume
    · subst heq
      rw [destStateOn_persisted (m := (writes i).destMeta) (by simp [Persisted])]
      exact update_self ..
    · have hkey : metaKey v ≠ metaKey (writes i).volume :=
        fun he => heq (metaKey_inj hvol (hv i) he)
      have hpath : metaPath root v ≠ metaPath root (writes i).volume :=
        fun he => heq (metaPath_injective hvol (hv i) he)
      have hstore : destStateOn (update store (metaKey (writes i).volume)
          (some (.metadata (writes i).destMeta))) v = destStateOn store v := by
        simp only [destStateOn, update_of_ne hkey]
      rw [hstore, ← h v hvol]
      exact update_of_ne hpath ..

/-- On a local destination metadata is replaced as a whole. Whatever processes write
metadata, at whatever pace and wherever they stop, the files show at every moment what a
store would hold after the finished writes, as long as no write begins while another one for
the same volume is under way. Who has opened a metadata file goes on reading one text. And a
write makes the moves of such a process: it has replaced the file just when it returns. -/
theorem localMetadata_atomic (root : String) (text : DestMeta → Bytes) (writes : ι → MetaWrite)
    (hv : ∀ i, SlashFree (writes i).volume) {s s' : Replacing ι UInt8} (hidle : ∀ i, ¬ s.Open i)
    {store : Store} (hshows : Shows root text s.files store) {renamed : List ι}
    (hrun : Run (fun i => (writes i).writer root text) s renamed s') :
    Shows root text s'.files (storeAfter writes store renamed) ∧
    (∀ volume n, s'.files.entry (metaPath root volume) = some n → ∀ later s'',
      Run (fun i => (writes i).writer root text) s' later s'' →
        s''.files.content n = s'.files.content n) ∧
    ∀ i, s'.stage i = .waiting →
      (∀ j, tmpPath root (writes j).volume = tmpPath root (writes i).volume → ¬ s'.Open j) →
      ∀ env calls, wp (writeMetadataToDest env root (writes i).volume (text (writes i).destMeta))
        (fun _ d => ∃ s'', Run (fun i => (writes i).writer root text) s (renamed ++ [i]) s'' ∧
          s''.files = d.files ∧ s''.stage = update s'.stage i .renamed)
        (fun _ d => ∃ s'', Run (fun i => (writes i).writer root text) s renamed s'' ∧
          s''.files = d.files ∧ s''.stage = update s'.stage i .stopped) ⟨s'.files, calls⟩ := by
  have hnames : ∀ i j, ((writes i).writer root text).temp ≠ ((writes j).writer root text).target :=
    fun i j => tmpPath_ne_metaPath _ _ _ _
  have hfill : Filling (fun i => (writes i).writer root text) s := .of_idle hidle
  have htemp : ∀ volume i, metaPath root volume ≠ ((writes i).writer root text).temp :=
    fun volume i => (tmpPath_ne_metaPath _ _ _ _).symm
  refine ⟨fun volume hvolume => ?_, fun volume n hn later s'' hlater => ?_, ?_⟩
  · rw [hrun.registers hnames hfill (htemp volume)]
    exact registers_shows hv renamed hshows hvolume
  · have hsettled : Settled (fun i => (writes i).writer root text) s' n :=
      settled_of_entry (htemp volume) hn
    exact (hlater.settled hnames (hrun.filling hnames hfill) hsettled).2
  · intro i hwaiting halone env calls
    have hreaches := @writeMetadataToDest_reaches ι _ (fun i => (writes i).writer root text) env i
      s s' renamed ⟨s'.files, calls⟩ root (writes i).volume hrun rfl rfl hwaiting halone rfl
    exact hreaches

end Whole

def noFiles : FileSystem UInt8 :=
  ⟨fun _ => none, fun _ => [], 0, fun _ _ h => (nomatch h), fun _ _ _ h => (nomatch h)⟩

/-- The only write of one process. -/
def firstWrite : Unit → MetaWrite := fun _ => ⟨"root", DestMeta.new 0 0 []⟩

/-- Two bytes of metadata in two system calls, shown when the write has returned. -/
theorem localMetadata_atomic_firstWrite :
    ∃ d, (outcome (writeMetadataToDest Env.calm "/backup" "root" [65, 66]) ⟨noFiles, 0⟩) =
        (.ok (), d) ∧
      Shows "/backup" (fun _ => [65, 66]) d.files
        (storeAfter firstWrite (fun _ => none) [()]) := by
  obtain ⟨⟨⟩, d, hd⟩ := exists_of_isOk
    (x := writeMetadataToDest Env.calm "/backup" "root" [65, 66]) (s := ⟨noFiles, 0⟩)
    (by decide +kernel)
  let idle : Replacing Unit UInt8 := ⟨noFiles, fun _ => .waiting⟩
  have hv : ∀ i, SlashFree (firstWrite i).volume := by decide
  have hidle : ∀ i, ¬ idle.Open i := fun i ⟨_, _, h⟩ => nomatch h
  have hshows : Shows "/backup" (fun _ => [65, 66]) idle.files fun _ => none := fun _ _ => rfl
  have hwrite := (localMetadata_atomic "/backup" (fun _ => [65, 66]) firstWrite hv hidle hshows
    .refl).2.2 () rfl (fun j _ => hidle j) Env.calm 0
  obtain ⟨s', hrun, hfiles, -⟩ := wp_ok hwrite hd
  refine ⟨d, hd, ?_⟩
  rw [← hfiles]
  exact (localMetadata_atomic "/backup" (fun _ => [65, 66]) firstWrite hv hidle hshows hrun).1

def mixing : Bool → Writer UInt8
  | true => ⟨tmpPath "/backup" "root", metaPath "/backup" "root", [1, 2]⟩
  | false => ⟨tmpPath "/backup" "root", metaPath "/backup" "root", [3]⟩

/-- Two writes for one volume at the same time: the second one empties the temporary file
of the first and renames it, and the first goes on writing to what is now the metadata. -/
theorem overlapping_writes_mix :
    ∃ s', Relation.ReflTransGen (fun s s' => ∃ i action, Moves mixing s i action s')
        ⟨noFiles, fun _ => .waiting⟩ s' ∧
      s'.files.read (metaPath "/backup" "root") = some [3, 2] := by
  refine ⟨_, .tail (.tail (.tail (.tail (.tail (.single
    ⟨true, _, .create rfl⟩)
    ⟨true, _, .write [1] rfl (by decide)⟩)
    ⟨false, _, .create rfl⟩)
    ⟨false, _, .write [3] rfl (by decide)⟩)
    ⟨false, _, .rename rfl rfl⟩)
    ⟨true, _, .write [2] rfl (by decide)⟩, by decide +kernel⟩

end Bbkar
