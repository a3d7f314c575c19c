import Bbkar.DataModel
import Bbkar.DestMeta

/-!
# The metadata file

Translation of the derived `Serialize`, of the derived `Deserialize` of archives and of the
custom one of `DestMeta`, which reads a struct of its own and sorts.
-/
namespace Bbkar
open DataModel KeySort

/-! ## Timestamps -/

namespace Timestamp

def fields : List String := ["raw", "timestamp", "seq"]

def serialize (t : Timestamp) : Value :=
  writeStruct fields [.str t.raw, .str t.timestamp, writeOption .str t.seq]

def deserialize (v : Value) : Option Timestamp := do
  let entries ← readStruct fields v
  let raw ← readField entries "raw" readStr
  let timestamp ← readField entries "timestamp" readStr
  let seq ← readOptionField entries "seq" readStr
  return ⟨raw, timestamp, seq⟩

end Timestamp

/-! ## Chunks and archives -/

namespace ChunkFilename

def fields : List String := ["filename", "size", "sha256sum", "compression", "raw_size"]

def serialize (c : ChunkFilename) : Value :=
  writeStruct fields [.str c.filename, .nat c.size, writeOption .str c.sha256sum,
    writeOption .str c.compression, writeOption .nat c.rawSize]

def deserialize (v : Value) : Option ChunkFilename := do
  let entries ← readStruct fields v
  let filename ← readField entries "filename" readStr
  let size ← readField entries "size" readU32
  let sha256sum ← readOptionField entries "sha256sum" readStr
  let compression ← readOptionField entries "compression" readStr
  let rawSize ← readOptionField entries "raw_size" readU64
  return ⟨filename, size, sha256sum, compression, rawSize⟩

/-- The numbers are values of the source's `u32` and `u64`. -/
structure Fits (c : ChunkFilename) : Prop where
  size : c.size < 2 ^ 32
  rawSize : ∀ n, c.rawSize = some n → n < 2 ^ 64

end ChunkFilename

namespace VolumeArchive

def fields : List String := ["snapshot", "parent_snapshot", "chunks"]

def serialize (a : VolumeArchive) : Value :=
  writeStruct fields [a.timestamp.serialize, writeOption .str a.parentTimestamp,
    writeList ChunkFilename.serialize a.chunks]

def deserialize (v : Value) : Option VolumeArchive := do
  let entries ← readStruct fields v
  let timestamp ← readField entries "snapshot" Timestamp.deserialize
  let parentTimestamp ← readOptionField entries "parent_snapshot" readStr
  let chunks ← readField entries "chunks" (readList ChunkFilename.deserialize)
  return ⟨timestamp, parentTimestamp, chunks⟩

def Fits (a : VolumeArchive) : Prop := ∀ c ∈ a.chunks, c.Fits

end VolumeArchive

namespace DestMeta

def fields : List String := ["first_sync_timestamp", "last_sync_timestamp", "archives"]

def serialize (m : DestMeta) : Value :=
  writeStruct fields [.nat m.firstSyncTimestamp, .nat m.lastSyncTimestamp,
    writeList VolumeArchive.serialize m.archives]

/-- The fields of the struct `Raw`, handed to `DestMeta::new`. -/
def deserialize (v : Value) : Option DestMeta := do
  let entries ← readStruct fields v
  let firstSyncTimestamp ← readField entries "first_sync_timestamp" readU64
  let lastSyncTimestamp ← readField entries "last_sync_timestamp" readU64
  let archives ← readField entries "archives" (readList VolumeArchive.deserialize)
  return new firstSyncTimestamp lastSyncTimestamp archives

structure Fits (m : DestMeta) : Prop where
  firstSyncTimestamp : m.firstSyncTimestamp < 2 ^ 64
  lastSyncTimestamp : m.lastSyncTimestamp < 2 ^ 64
  archives : ∀ a ∈ m.archives, a.Fits

theorem fits_new {first last : ℕ} {archives : List VolumeArchive} (hfirst : first < 2 ^ 64)
    (hlast : last < 2 ^ 64) (h : ∀ a ∈ archives, a.Fits) : (new first last archives).Fits :=
  ⟨hfirst, hlast, fun a ha => h a ((mem_sortByKey _ _ a).mp ha)⟩

end DestMeta

/-! ## Round trips -/

theorem readOption_str (o : Option String) : readOption readStr (writeOption .str o) = some o :=
  readOption_writeOption (by simp) (by simp)

theorem Timestamp.deserialize_serialize (t : Timestamp) :
    Timestamp.deserialize t.serialize = some t := by
  rw [serialize, deserialize, readStruct_writeStruct rfl (by decide)]
  simp [fields, readOption_str]

theorem ChunkFilename.deserialize_serialize {c : ChunkFilename} (h : c.Fits) :
    ChunkFilename.deserialize c.serialize = some c := by
  have hraw : readOption readU64 (writeOption .nat c.rawSize) = some c.rawSize :=
    readOption_writeOption (by simp) fun n hn => readU64_nat (h.rawSize n hn)
  rw [serialize, deserialize, readStruct_writeStruct rfl (by decide)]
  simp [fields, readOption_str, readU32_nat h.size, hraw]

theorem VolumeArchive.deserialize_serialize {a : VolumeArchive} (h : a.Fits) :
    VolumeArchive.deserialize a.serialize = some a := by
  have hchunks : readList ChunkFilename.deserialize (writeList ChunkFilename.serialize a.chunks) =
      some a.chunks :=
    readList_writeList fun c hc => ChunkFilename.deserialize_serialize (h c hc)
  rw [serialize, deserialize, readStruct_writeStruct rfl (by decide)]
  simp [fields, readOption_str, hchunks,
    Timestamp.deserialize_serialize]

/-- A serialised value comes back as `DestMeta.reload` has it. -/
theorem DestMeta.deserialize_serialize {m : DestMeta} (h : m.Fits) :
    DestMeta.deserialize m.serialize = some m.reload := by
  have harchives : readList VolumeArchive.deserialize
      (writeList VolumeArchive.serialize m.archives) = some m.archives :=
    readList_writeList fun a ha => VolumeArchive.deserialize_serialize (h.archives a ha)
  have hfirst := readU64_nat h.firstSyncTimestamp
  have hlast := readU64_nat h.lastSyncTimestamp
  rw [serialize, deserialize, readStruct_writeStruct rfl (by decide)]
  simp [fields, hfirst, hlast, harchives, reload]

/-! ## Writing and reloading between additions -/

/-- A value is determined by its two timestamps and the set of its archives. -/
theorem DestMeta.eq_new_of_perm {m : DestMeta} {archives : List VolumeArchive}
    (hperm : archives.Perm m.archives) (hdistinct : (archives.map (·.timestamp)).Nodup) :
    m = DestMeta.new m.firstSyncTimestamp m.lastSyncTimestamp archives := by
  have hsort := sortByKey_eq_of_perm hperm hdistinct
  calc m = m.reload := m.reload_eq.symm
    _ = DestMeta.new m.firstSyncTimestamp m.lastSyncTimestamp archives := by
      simp only [reload, new, hsort]

section File

variable {Text : Type} (toText : Value → Text) (fromText : Text → Option Value)

/-- The content of `bbkar-meta.yaml`. -/
def writeMeta (m : DestMeta) : Text := toText m.serialize

def loadMeta (content : Text) : Option DestMeta := (fromText content).bind DestMeta.deserialize

/-- What happens to metadata between its creation and its last use. -/
inductive MetaOp where
  | addArchive (a : VolumeArchive)
  | reload
  deriving Repr

def MetaOp.apply (m : DestMeta) : MetaOp → Option DestMeta
  | .addArchive a => some (m.addArchive a)
  | .reload => loadMeta fromText (writeMeta toText m)

/-- The archives that the operations add, in order. -/
def addedArchives (ops : List MetaOp) : List VolumeArchive :=
  ops.filterMap fun
    | .addArchive a => some a
    | .reload => none

variable {toText fromText} (hyaml : ∀ v, fromText (toText v) = some v)
include hyaml

theorem loadMeta_writeMeta {m : DestMeta} (h : m.Fits) :
    loadMeta fromText (writeMeta toText m) = some m := by
  rw [loadMeta, writeMeta, hyaml, Option.bind_some, DestMeta.deserialize_serialize h,
    DestMeta.reload_eq]

/-- One operation keeps the first and the last timestamp and adds its archive, if any. -/
theorem MetaOp.apply_spec {m : DestMeta} {op : MetaOp} (h : m.Fits)
    (hop : ∀ a ∈ addedArchives [op], a.Fits) :
    ∃ m', op.apply toText fromText m = some m' ∧ m'.Fits ∧
      m'.firstSyncTimestamp = m.firstSyncTimestamp ∧
      m'.lastSyncTimestamp = m.lastSyncTimestamp ∧
      m'.archives.Perm (m.archives ++ addedArchives [op]) := by
  cases op with
  | addArchive a =>
    have hperm : (m.addArchive a).archives.Perm (m.archives ++ [a]) := sortByKey_perm _ _
    refine ⟨m.addArchive a, rfl, ⟨h.firstSyncTimestamp, h.lastSyncTimestamp, ?_⟩, rfl, rfl, hperm⟩
    intro b hb
    rcases (DestMeta.mem_addArchive m a b).mp hb with rfl | hb
    · exact hop _ (by simp [addedArchives])
    · exact h.archives b hb
  | reload =>
    refine ⟨m, loadMeta_writeMeta hyaml h, h, rfl, rfl, ?_⟩
    simp [addedArchives]

/-- Any sequence of operations adds its archives and loses none. -/
theorem foldlM_metaOps {m : DestMeta} {ops : List MetaOp} (h : m.Fits)
    (hops : ∀ a ∈ addedArchives ops, a.Fits) :
    ∃ m', ops.foldlM (MetaOp.apply toText fromText) m = some m' ∧
      m'.firstSyncTimestamp = m.firstSyncTimestamp ∧
      m'.lastSyncTimestamp = m.lastSyncTimestamp ∧
      m'.archives.Perm (m.archives ++ addedArchives ops) := by
  induction ops generalizing m with
  | nil => exact ⟨m, rfl, rfl, rfl, by simp [addedArchives]⟩
  | cons op ops ih =>
    have hsplit : addedArchives (op :: ops) = addedArchives [op] ++ addedArchives ops :=
      List.filterMap_append (l := [op])
    rw [hsplit] at hops
    obtain ⟨m₁, hstep, hfits, hfirst, hlast, hperm⟩ := MetaOp.apply_spec hyaml h
      fun a ha => hops a (List.mem_append_left _ ha)
    obtain ⟨m₂, hrest, hfirst₂, hlast₂, hperm₂⟩ := ih hfits
      fun a ha => hops a (List.mem_append_right _ ha)
    refine ⟨m₂, ?_, hfirst₂.trans hfirst, hlast₂.trans hlast, ?_⟩
    · rw [List.foldlM_cons, hstep]
      exact hrest
    · rw [hsplit, ← List.append_assoc]
      exact hperm₂.trans (hperm.append_right _)

/-- Archives with distinct timestamps make one metadata value, however they are split
between creation and addition, in whatever order they are added and wherever the value is
written and reloaded in between. -/
theorem destMeta_canonical (first last : ℕ) (archives : List VolumeArchive)
    (hdistinct : (archives.map (·.timestamp)).Nodup)
    (hfits : (DestMeta.new first last archives).Fits) :
    ∃ m : DestMeta, m.firstSyncTimestamp = first ∧ m.lastSyncTimestamp = last ∧
      m.archives.Perm archives ∧
      m.archives.Pairwise (fun a b => a.timestamp < b.timestamp) ∧
      ∀ (initial : List VolumeArchive) (ops : List MetaOp),
        (initial ++ addedArchives ops).Perm archives →
          ops.foldlM (MetaOp.apply toText fromText) (DestMeta.new first last initial) =
            some m := by
  refine ⟨DestMeta.new first last archives, rfl, rfl, sortByKey_perm _ _,
    sortByKey_strict hdistinct, ?_⟩
  intro initial ops hperm
  have hall : ∀ a ∈ initial ++ addedArchives ops, a.Fits := fun a ha =>
    hfits.archives a ((mem_sortByKey _ _ a).mpr (hperm.mem_iff.mp ha))
  have hstart : (DestMeta.new first last initial).Fits :=
    DestMeta.fits_new hfits.firstSyncTimestamp hfits.lastSyncTimestamp
      fun a ha => hall a (List.mem_append_left _ ha)
  obtain ⟨m, hrun, hfirst, hlast, harchives⟩ := foldlM_metaOps hyaml hstart
    fun a ha => hall a (List.mem_append_right _ ha)
  have hinput : m.archives.Perm archives :=
    harchives.trans (((sortByKey_perm _ initial).append_right _).trans hperm)
  rw [hrun, DestMeta.eq_new_of_perm hinput.symm hdistinct, hfirst, hlast]
  rfl

end File

/-- A full archive with every optional value and an incremental one without. -/
def filedArchives : List VolumeArchive :=
  [⟨.plain "20230102", some "20230101", [⟨"part000002.btrfs.zstd", 7, none, none, none⟩]⟩,
    ⟨⟨"20230101", "20230101", some "_1"⟩, none,
      [⟨"part000001.btrfs.zstd", 5, some "ab", some "zstd", some 9⟩]⟩]

/-- The text is the document itself. -/
theorem destMeta_canonical_filed :
    (filedArchives.map (·.timestamp)).Nodup ∧ (DestMeta.new 1 2 filedArchives).Fits ∧
    ∃ m : DestMeta, m.firstSyncTimestamp = 1 ∧ m.lastSyncTimestamp = 2 ∧
      m.archives.Perm filedArchives ∧
      m.archives.Pairwise (fun a b => a.timestamp < b.timestamp) ∧
      ∀ (initial : List VolumeArchive) (ops : List MetaOp),
        (initial ++ addedArchives ops).Perm filedArchives →
          ops.foldlM (MetaOp.apply id some) (DestMeta.new 1 2 initial) = some m := by
  have hdistinct : (filedArchives.map (·.timestamp)).Nodup := by decide
  have hfits : (DestMeta.new 1 2 filedArchives).Fits := by
    refine DestMeta.fits_new (by decide) (by decide) ?_
    intro a ha c hc
    rcases List.mem_pair.mp ha with rfl | rfl
    · obtain rfl := List.mem_singleton.mp hc
      exact ⟨by decide, by simp⟩
    · obtain rfl := List.mem_singleton.mp hc
      exact ⟨by decide, by simp⟩
  exact ⟨hdistinct, hfits, destMeta_canonical (fun _ => rfl) 1 2 filedArchives hdistinct hfits⟩

end Bbkar
