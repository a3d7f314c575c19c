import Mathlib.Algebra.BigOperators.Group.List.Basic
import Mathlib.Algebra.GroupWithZero.Nat
import Mathlib.Algebra.Order.Group.Nat
import Mathlib.Data.List.Induction

/-!
# Filling boxes up to a limit

A piece goes into the open box as a whole. A box that has reached the limit is closed by the
next piece, which opens another one. The boxes are as full as they can be, and no fuller,
exactly when no piece crosses a multiple of the limit.
-/
namespace Bbkar.Filling

/-- The sizes of the boxes that are closed, and of the open one. -/
structure Boxes where
  closed : List ℕ
  opened : Option ℕ

namespace Boxes

def all (b : Boxes) : List ℕ := b.closed ++ b.opened.toList

/-- The boxes with one open that has room for a piece. -/
def ready (limit : ℕ) (b : Boxes) : Boxes :=
  match b.opened with
  | none => ⟨b.closed, some 0⟩
  | some size => if limit ≤ size then ⟨b.closed ++ [size], some 0⟩ else b

def put (b : Boxes) (n : ℕ) : Boxes := { b with opened := b.opened.map (· + n) }

def fill (limit : ℕ) (b : Boxes) (ns : List ℕ) : Boxes :=
  ns.foldl (fun b n => (b.ready limit).put n) b

end Boxes

/-- No box is over the limit, and all but the last are at the limit. -/
def Filled (limit : ℕ) (sizes : List ℕ) : Prop :=
  (∀ size ∈ sizes, size ≤ limit) ∧ ∀ size ∈ sizes.dropLast, size = limit

/-- Every piece ends before, or at, the next multiple of the limit. -/
def NoCrossing (limit : ℕ) (ns : List ℕ) : Prop :=
  ∀ before n after, ns = before ++ n :: after → before.sum % limit + n ≤ limit

theorem noCrossing_concat {limit : ℕ} {ns : List ℕ} {n : ℕ} :
    NoCrossing limit (ns ++ [n]) ↔ NoCrossing limit ns ∧ ns.sum % limit + n ≤ limit := by
  constructor
  · intro h
    refine ⟨fun before m after hns => h before m (after ++ [n]) ?_, h ns n [] rfl⟩
    rw [hns, List.append_assoc, List.cons_append]
  · rintro ⟨hns, hn⟩ before m after hsplit
    rcases List.eq_nil_or_concat after with rfl | ⟨after, n', rfl⟩
    · obtain ⟨rfl, hlast⟩ := List.append_inj' hsplit rfl
      obtain rfl := List.head_eq_of_cons_eq hlast
      exact hn
    · rw [List.concat_eq_append, ← List.cons_append, ← List.append_assoc] at hsplit
      exact hns before m after (List.append_inj' hsplit rfl).1

variable {limit : ℕ} {b : Boxes} {total : ℕ}

/-- The closed boxes are at the limit, the open one is not over it. -/
structure Level (limit : ℕ) (b : Boxes) (total : ℕ) : Prop where
  closed : ∀ size ∈ b.closed, size = limit
  opened : ∀ size, b.opened = some size → size ≤ limit
  first : b.opened = none → b.closed = []
  sum : b.all.sum = total

theorem level_empty (limit : ℕ) : Level limit ⟨[], none⟩ 0 :=
  ⟨by simp, by simp, fun _ => rfl, rfl⟩

theorem Level.total_eq (h : Level limit b total) {size : ℕ} (hsize : b.opened = some size) :
    total = b.closed.length * limit + size := by
  have hclosed := List.eq_replicate_of_mem h.closed
  rw [← h.sum, Boxes.all, hsize, List.sum_append, hclosed]
  simp

/-- The box for the next piece holds what is over the last multiple of the limit. -/
theorem Level.ready (h : Level limit b total) (hlimit : 0 < limit) :
    Level limit (b.ready limit) total ∧ (b.ready limit).opened = some (total % limit) := by
  unfold Boxes.ready
  split
  · next hnone =>
    have htotal : total = 0 := by simp [← h.sum, Boxes.all, hnone, h.first hnone]
    subst htotal
    exact ⟨⟨h.closed, by simp, by simp, by simp [Boxes.all, h.first hnone]⟩, by simp⟩
  · next size hsize =>
    have htotal := h.total_eq hsize
    split_ifs with hfull
    · obtain rfl : size = limit := le_antisymm (h.opened size hsize) hfull
      refine ⟨⟨?_, by simp, by simp, ?_⟩, by simp [htotal]⟩
      · intro x hx
        rcases List.mem_append.mp hx with hx | hx
        · exact h.closed x hx
        · exact List.mem_singleton.mp hx
      · simpa [Boxes.all, hsize] using h.sum
    · refine ⟨h, ?_⟩
      rw [hsize, htotal, Nat.mul_add_mod_self_right, Nat.mod_eq_of_lt (not_le.mp hfull)]

theorem Level.put (h : Level limit b total) {size n : ℕ} (hsize : b.opened = some size)
    (hn : size + n ≤ limit) : Level limit (b.put n) (total + n) := by
  refine ⟨h.closed, ?_, by simp [Boxes.put, hsize], ?_⟩
  · rintro _ hput
    obtain rfl : size + n = _ := by simpa [Boxes.put, hsize] using hput
    exact hn
  · rw [← h.sum]
    simp [Boxes.all, Boxes.put, hsize, Nat.add_assoc]

theorem Level.filled (h : Level limit b total) : Filled limit b.all := by
  have hclosed : ∀ size ∈ b.all.dropLast, size = limit := by
    unfold Boxes.all
    cases b.opened with
    | none => simpa using fun size hs => h.closed size (List.dropLast_subset _ hs)
    | some size => simpa using h.closed
  refine ⟨fun size hs => ?_, hclosed⟩
  rcases List.mem_append.mp hs with hs | hs
  · exact (h.closed size hs).le
  · exact h.opened size (by simpa [eq_comm] using hs)

/-- A box that is over the limit stays so. -/
theorem over_put (h : ∃ size ∈ b.all, limit < size) (n : ℕ) :
    ∃ size ∈ ((b.ready limit).put n).all, limit < size := by
  obtain ⟨size, hmem, hover⟩ := h
  refine ⟨size, ?_, hover⟩
  rcases List.mem_append.mp hmem with hmem | hmem
  · unfold Boxes.ready
    split
    · exact List.mem_append_left _ hmem
    · split_ifs
      · exact List.mem_append_left _ (List.mem_append_left _ hmem)
      · exact List.mem_append_left _ hmem
  · have hsize : b.opened = some size := by simpa [eq_comm] using hmem
    simp [Boxes.ready, hsize, hover.le, Boxes.all, Boxes.put]

/-- The boxes are level, or a piece has crossed a multiple and its box is over the limit. -/
theorem fill_cases (hlimit : 0 < limit) (ns : List ℕ) :
    (NoCrossing limit ns ∧ Level limit (Boxes.fill limit ⟨[], none⟩ ns) ns.sum) ∨
    (¬ NoCrossing limit ns ∧ ∃ size ∈ (Boxes.fill limit ⟨[], none⟩ ns).all, limit < size) := by
  induction ns using List.reverseRecOn with
  | nil => exact Or.inl ⟨by simp [NoCrossing], level_empty limit⟩
  | append_singleton ns n ih =>
    rw [noCrossing_concat, Boxes.fill, List.foldl_append, List.foldl_cons, List.foldl_nil,
      List.sum_append, List.sum_singleton]
    rcases ih with ⟨hns, hlevel⟩ | ⟨hns, hover⟩
    · obtain ⟨hready, hopened⟩ := hlevel.ready hlimit
      by_cases hn : ns.sum % limit + n ≤ limit
      · exact Or.inl ⟨⟨hns, hn⟩, hready.put hopened hn⟩
      · refine Or.inr ⟨fun h => hn h.2, ns.sum % limit + n, ?_, not_le.mp hn⟩
        refine List.mem_append_right _ ?_
        rw [Boxes.put]
        simp only [Boxes.fill] at hopened
        simp [hopened]
    · exact Or.inr ⟨fun h => hns h.1, over_put hover n⟩

theorem filled_fill_iff (hlimit : 0 < limit) (ns : List ℕ) :
    Filled limit (Boxes.fill limit ⟨[], none⟩ ns).all ↔ NoCrossing limit ns := by
  rcases fill_cases hlimit ns with ⟨hns, hlevel⟩ | ⟨hns, size, hmem, hover⟩
  · exact iff_of_true hlevel.filled hns
  · exact iff_of_false (fun h => absurd (h.1 size hmem) (not_le.mpr hover)) hns

end Bbkar.Filling
