import Bbkar.World
import Mathlib.Algebra.BigOperators.Group.List.Basic

/-!
# Totals of archives

Statistics add up: `merge` is commutative and associative, and counting the archives of
metadata gives the sum over them, in whatever order.
-/
namespace Bbkar.ArchiveStats

instance : Zero ArchiveStats := ⟨default⟩

instance : Add ArchiveStats := ⟨merge⟩

theorem add_eq_merge (a b : ArchiveStats) : a + b = a.merge b := rfl

theorem zero_eq_default : (0 : ArchiveStats) = default := rfl

instance : AddCommMonoid ArchiveStats where
  add_assoc a b c := by simp only [add_eq_merge, merge, Nat.add_assoc]
  zero_add a := by simp only [add_eq_merge, zero_eq_default, merge, default, Nat.zero_add]
  add_zero a := by simp only [add_eq_merge, zero_eq_default, merge, default, Nat.add_zero]
  add_comm a b := by simp only [add_eq_merge, merge, Nat.add_comm]
  nsmul := nsmulRec

/-- One archive of the given size. -/
def single (incremental : Bool) (size : ℕ) : ArchiveStats := default.addSize incremental size

def ofArchive (a : VolumeArchive) : ArchiveStats := single a.isIncremental a.totalSize

theorem addSize_eq (stats : ArchiveStats) (incremental : Bool) (size : ℕ) :
    stats.addSize incremental size = stats + single incremental size := by
  cases incremental <;> simp [single, addSize, add_eq_merge, merge, default]

theorem addArchive_eq (stats : ArchiveStats) (a : VolumeArchive) :
    stats.addArchive a = stats + ofArchive a :=
  addSize_eq _ _ _

theorem foldl_addArchive (archives : List VolumeArchive) (stats : ArchiveStats) :
    archives.foldl addArchive stats = stats + (archives.map ofArchive).sum := by
  induction archives generalizing stats with
  | nil => simp
  | cons a archives ih =>
    rw [List.foldl_cons, ih, addArchive_eq, List.map_cons, List.sum_cons, add_assoc]

theorem fromMeta_eq (destMeta : Option DestMeta) :
    fromMeta destMeta = (((destMeta.map DestMeta.archives).getD []).map ofArchive).sum := by
  rw [fromMeta, foldl_addArchive, ← zero_eq_default, zero_add]

/-- Metadata with one more archive counts one more, wherever sorting puts it. -/
theorem fromMeta_addArchive (m : DestMeta) (a : VolumeArchive) :
    fromMeta (some (m.addArchive a)) = fromMeta (some m) + ofArchive a := by
  have hperm := ((m.addArchive_perm a).map ofArchive).sum_eq
  simp only [fromMeta_eq, Option.map_some, Option.getD_some, hperm, List.map_cons, List.sum_cons]
  rw [add_comm]

end Bbkar.ArchiveStats
