import Bbkar.Timestamp
import Bbkar.ParentForest
import Mathlib.Algebra.GroupWithZero.Nat

/-!
# Destination metadata

The metadata of one volume lists its archives in the order of their timestamps. The list
is private in the source and every way to build it sorts, so sortedness is a field.
Sizes are natural numbers; the one cast to `u32` is made where a chunk is recorded.
-/
namespace Bbkar
open KeySort ParentForest

structure ChunkFilename where
  filename : String
  size : ℕ
  sha256sum : Option String
  compression : Option String
  rawSize : Option ℕ
  deriving DecidableEq, Repr

/-- A copy of a snapshot. A full backup has no parent timestamp. -/
structure VolumeArchive where
  timestamp : Timestamp
  parentTimestamp : Option String
  chunks : List ChunkFilename
  deriving DecidableEq, Repr

namespace VolumeArchive

def raw (a : VolumeArchive) : String := a.timestamp.raw

def isIncremental (a : VolumeArchive) : Bool := a.parentTimestamp.isSome

def totalSize (a : VolumeArchive) : ℕ := (a.chunks.map (·.size)).sum

/-- Defined only when every chunk records its raw size. -/
def totalRawSize (a : VolumeArchive) : Option ℕ :=
  (a.chunks.map (·.rawSize)).foldlM (fun acc size => size.map (acc + ·)) 0

end VolumeArchive

structure DestMeta where
  firstSyncTimestamp : ℕ
  lastSyncTimestamp : ℕ
  archives : List VolumeArchive
  sorted : archives.Pairwise (fun a b => a.timestamp ≤ b.timestamp)
  deriving DecidableEq

namespace DestMeta

def new (firstSyncTimestamp lastSyncTimestamp : ℕ) (archives : List VolumeArchive) : DestMeta :=
  ⟨firstSyncTimestamp, lastSyncTimestamp, sortByKey (·.timestamp) archives,
    sortByKey_sorted _ archives⟩

def addArchive (m : DestMeta) (a : VolumeArchive) : DestMeta :=
  ⟨m.firstSyncTimestamp, m.lastSyncTimestamp, sortByKey (·.timestamp) (m.archives ++ [a]),
    sortByKey_sorted _ _⟩

def setLastSyncTimestamp (m : DestMeta) (ts : ℕ) : DestMeta :=
  { m with lastSyncTimestamp := ts }

/-- What the custom `Deserialize` makes of a serialised value: it sorts once more. -/
def reload (m : DestMeta) : DestMeta :=
  new m.firstSyncTimestamp m.lastSyncTimestamp m.archives

@[simp] theorem reload_eq (m : DestMeta) : m.reload = m := by
  simp only [reload, new, sortByKey_eq_self _ _ m.sorted]

@[simp] theorem new_nil_archives (first last : ℕ) : (new first last []).archives = [] := rfl

@[simp] theorem setLastSyncTimestamp_archives (m : DestMeta) (ts : ℕ) :
    (m.setLastSyncTimestamp ts).archives = m.archives := rfl

@[simp] theorem setLastSyncTimestamp_first (m : DestMeta) (ts : ℕ) :
    (m.setLastSyncTimestamp ts).firstSyncTimestamp = m.firstSyncTimestamp := rfl

@[simp] theorem addArchive_first (m : DestMeta) (a : VolumeArchive) :
    (m.addArchive a).firstSyncTimestamp = m.firstSyncTimestamp := rfl

theorem addArchive_perm (m : DestMeta) (a : VolumeArchive) :
    (m.addArchive a).archives.Perm (a :: m.archives) :=
  (sortByKey_perm _ _).trans (List.perm_append_singleton a m.archives)

@[simp] theorem mem_addArchive (m : DestMeta) (a b : VolumeArchive) :
    b ∈ (m.addArchive a).archives ↔ b = a ∨ b ∈ m.archives := by
  rw [(addArchive_perm m a).mem_iff, List.mem_cons]

end DestMeta

/-- The field `meta` of the source, whose name is a keyword here. -/
structure DestState where
  destMeta : Option DestMeta

/-- The archive list the planner reads, empty when no metadata exists. -/
def DestState.archives (dest : DestState) : List VolumeArchive :=
  (dest.destMeta.map DestMeta.archives).getD []

def raws (archives : List VolumeArchive) : List String := archives.map VolumeArchive.raw

@[simp] theorem mem_raws {archives : List VolumeArchive} {name : String} :
    name ∈ raws archives ↔ ∃ a ∈ archives, a.raw = name := List.mem_map

/-- The parent pointers of an archive list, read by first match on the raw timestamp. -/
def parentForest (archives : List VolumeArchive) : Forest String := fun name =>
  (archives.find? (fun a => a.raw == name)).map (·.parentTimestamp)

theorem parentForest_ne_none {archives : List VolumeArchive} {name : String} :
    parentForest archives name ≠ none ↔ name ∈ raws archives := by
  simp [parentForest, raws]

theorem parentForest_supported (archives : List VolumeArchive) :
    Supported (parentForest archives) (raws archives) :=
  fun _ => parentForest_ne_none.mp

theorem eq_of_raw_eq {archives : List VolumeArchive} (hn : (raws archives).Nodup)
    {a b : VolumeArchive} (ha : a ∈ archives) (hb : b ∈ archives) (h : a.raw = b.raw) : a = b :=
  List.inj_on_of_nodup_map hn ha hb h

theorem find?_raw {archives : List VolumeArchive} (hn : (raws archives).Nodup)
    {a : VolumeArchive} (ha : a ∈ archives) :
    archives.find? (fun b => b.raw == a.raw) = some a := by
  cases h : archives.find? (fun b => b.raw == a.raw) with
  | none => simpa using List.find?_eq_none.mp h a ha
  | some b =>
    have hb : b.raw = a.raw := by simpa using List.find?_some h
    rw [eq_of_raw_eq hn (List.mem_of_find?_eq_some h) ha hb]

theorem find?_timestamp {archives : List VolumeArchive} (hn : (raws archives).Nodup)
    {a : VolumeArchive} (ha : a ∈ archives) :
    archives.find? (fun b => b.timestamp == a.timestamp) = some a := by
  cases h : archives.find? (fun b => b.timestamp == a.timestamp) with
  | none => simpa using List.find?_eq_none.mp h a ha
  | some b =>
    have hb : b.timestamp = a.timestamp := by simpa using List.find?_some h
    rw [eq_of_raw_eq hn (List.mem_of_find?_eq_some h) ha (congrArg Timestamp.raw hb)]

/-- Without repeated timestamps the forest is membership. -/
theorem parentForest_eq_some {archives : List VolumeArchive} (hn : (raws archives).Nodup)
    {name : String} {v : Option String} :
    parentForest archives name = some v ↔
      ∃ a ∈ archives, a.raw = name ∧ a.parentTimestamp = v := by
  constructor
  · intro h
    obtain ⟨a, ha, hv⟩ := Option.map_eq_some_iff.mp h
    have hname : a.raw = name := by simpa using List.find?_some ha
    exact ⟨a, List.mem_of_find?_eq_some ha, hname, hv⟩
  · rintro ⟨a, ha, rfl, rfl⟩
    simp [parentForest, find?_raw hn ha]

/-- Without repeated timestamps the order of the list does not matter. -/
theorem parentForest_perm {archives archives' : List VolumeArchive}
    (hn : (raws archives).Nodup) (hp : archives.Perm archives') :
    parentForest archives = parentForest archives' := by
  have hn' : (raws archives').Nodup := (hp.map _).nodup_iff.mp hn
  funext name
  refine Option.ext fun v => ?_
  rw [parentForest_eq_some hn, parentForest_eq_some hn']
  simp only [hp.mem_iff]

/-- No two archives share a raw timestamp, and every parent is archived with a strictly
smaller raw timestamp. Sortedness is the field `DestMeta.sorted`. -/
structure WellFormed (archives : List VolumeArchive) : Prop where
  nodup : (raws archives).Nodup
  parent : ∀ a ∈ archives, ∀ p, a.parentTimestamp = some p →
    p < a.raw ∧ ∃ b ∈ archives, b.raw = p

theorem WellFormed.nil : WellFormed [] := ⟨by simp [raws], by simp⟩

theorem WellFormed.of_full {archives : List VolumeArchive} (h : (raws archives).Nodup)
    (hfull : ∀ a ∈ archives, a.parentTimestamp = none) : WellFormed archives := by
  refine ⟨h, ?_⟩
  intro a ha p hp
  simp [hfull a ha] at hp

theorem WellFormed.older {archives : List VolumeArchive} (h : WellFormed archives) :
    Older (parentForest archives) := by
  intro k p hk
  obtain ⟨a, ha, rfl, hp⟩ := (parentForest_eq_some h.nodup).mp hk
  obtain ⟨hlt, b, hb, rfl⟩ := h.parent a ha p hp
  exact ⟨hlt, parentForest_ne_none.mpr (mem_raws.mpr ⟨b, hb, rfl⟩)⟩

/-- Hence every parent chain ends at a full archive. -/
theorem WellFormed.exists_lineage {archives : List VolumeArchive} (h : WellFormed archives)
    {a : VolumeArchive} (ha : a ∈ archives) : ∃ l, Lineage (parentForest archives) a.raw l :=
  h.older.exists_lineage (parentForest_supported archives)
    (parentForest_ne_none.mpr (mem_raws.mpr ⟨a, ha, rfl⟩))

theorem lineage_length_le {archives : List VolumeArchive} (hw : WellFormed archives)
    {name : String} {l : List String} (h : Lineage (parentForest archives) name l) :
    l.length ≤ archives.length := by
  have hnodup : l.Nodup := (h.sorted hw.older).1.imp (fun hlt => hlt.ne)
  have hsub : l ⊆ raws archives := by
    intro x hx
    obtain ⟨m, hm, _⟩ := h.of_mem hx
    exact parentForest_ne_none.mp hm.present
  calc
    _ ≤ (raws archives).length := (hnodup.subperm hsub).length_le
    _ = archives.length := List.length_map _

/-- Well-formedness does not depend on the order of the list. -/
theorem WellFormed.perm {archives archives' : List VolumeArchive} (h : WellFormed archives)
    (hp : archives.Perm archives') : WellFormed archives' := by
  refine ⟨(hp.map _).nodup_iff.mp h.nodup, ?_⟩
  intro a ha p hap
  obtain ⟨hlt, b, hb, hbp⟩ := h.parent a (hp.mem_iff.mpr ha) p hap
  exact ⟨hlt, b, hp.mem_iff.mp hb, hbp⟩

/-- A new archive whose parent, if any, is archived and older keeps metadata well-formed. -/
theorem WellFormed.addArchive {m : DestMeta} (h : WellFormed m.archives) {a : VolumeArchive}
    (hnew : a.raw ∉ raws m.archives)
    (hparent : ∀ p, a.parentTimestamp = some p → p < a.raw ∧ p ∈ raws m.archives) :
    WellFormed (m.addArchive a).archives := by
  refine WellFormed.perm ?_ (m.addArchive_perm a).symm
  refine ⟨List.nodup_cons.mpr ⟨hnew, h.nodup⟩, ?_⟩
  intro b hb p hp
  rcases List.mem_cons.mp hb with rfl | hb
  · obtain ⟨hlt, hmem⟩ := hparent p hp
    obtain ⟨c, hc, hcp⟩ := mem_raws.mp hmem
    exact ⟨hlt, c, List.mem_cons_of_mem _ hc, hcp⟩
  · obtain ⟨hlt, c, hc, hcp⟩ := h.parent b hb p hp
    exact ⟨hlt, c, List.mem_cons_of_mem _ hc, hcp⟩

end Bbkar
