import Mathlib.Data.List.Sort

/-!
# Stable sorting by a key

Sorting by a key keeps the relative order of entries with equal keys. Insertion sort
is used because it is structurally recursive, so that sorted values can be evaluated.
A search from the end of a sorted list returns an entry of greatest key.
-/
namespace Bbkar.KeySort

variable {α κ : Type*} [LinearOrder κ]

instance keyTotal (key : α → κ) : Std.Total (fun a b => key a ≤ key b) :=
  ⟨fun a b => le_total (key a) (key b)⟩

instance keyTrans (key : α → κ) : IsTrans α (fun a b => key a ≤ key b) :=
  ⟨fun _ _ _ hab hbc => hab.trans hbc⟩

def sortByKey (key : α → κ) (xs : List α) : List α :=
  xs.insertionSort (fun a b => key a ≤ key b)

theorem sortByKey_perm (key : α → κ) (xs : List α) : (sortByKey key xs).Perm xs :=
  List.perm_insertionSort _ xs

@[simp] theorem mem_sortByKey (key : α → κ) (xs : List α) (a : α) :
    a ∈ sortByKey key xs ↔ a ∈ xs := (sortByKey_perm key xs).mem_iff

theorem sortByKey_sorted (key : α → κ) (xs : List α) :
    (sortByKey key xs).Pairwise (fun a b => key a ≤ key b) :=
  List.pairwise_insertionSort _ xs

theorem sortByKey_eq_self (key : α → κ) (xs : List α)
    (h : xs.Pairwise (fun a b => key a ≤ key b)) : sortByKey key xs = xs :=
  h.insertionSort_eq

/-- Distinct keys come out in strict order. -/
theorem sortByKey_strict {key : α → κ} {xs : List α} (h : (xs.map key).Nodup) :
    (sortByKey key xs).Pairwise (fun a b => key a < key b) := by
  have hne : (sortByKey key xs).Pairwise (fun a b => key a ≠ key b) :=
    List.pairwise_map.mp (((sortByKey_perm key xs).map key).nodup_iff.mpr h)
  exact (sortByKey_sorted key xs).imp₂ (fun _ _ hle hne => lt_of_le_of_ne hle hne) hne

/-- Lists in strict order of their keys with the same members are equal. -/
theorem eq_of_perm_of_strict {key : α → κ} {xs ys : List α} (h : xs.Perm ys)
    (hxs : xs.Pairwise (fun a b => key a < key b))
    (hys : ys.Pairwise (fun a b => key a < key b)) : xs = ys :=
  h.eq_of_pairwise (fun _ _ _ _ hab hba => absurd hab (not_lt.mpr hba.le)) hxs hys

/-- With distinct keys the sorted list does not depend on the order of the input. -/
theorem sortByKey_eq_of_perm {key : α → κ} {xs ys : List α} (hperm : xs.Perm ys)
    (h : (xs.map key).Nodup) : sortByKey key xs = sortByKey key ys :=
  eq_of_perm_of_strict
    ((sortByKey_perm key xs).trans (hperm.trans (sortByKey_perm key ys).symm))
    (sortByKey_strict h) (sortByKey_strict ((hperm.map key).nodup_iff.mp h))

/-- The first match from the end of a sorted list has the greatest key among all matches. -/
theorem find?_reverse_greatest (key : α → κ) (xs : List α) (p : α → Bool) (a : α)
    (hs : xs.Pairwise (fun a b => key a ≤ key b)) (h : xs.reverse.find? p = some a) :
    a ∈ xs ∧ p a = true ∧ ∀ b ∈ xs, p b = true → key b ≤ key a := by
  obtain ⟨hp, before, after, hsplit, hnone⟩ := List.find?_eq_some_iff_append.mp h
  have hxs : xs = after.reverse ++ a :: before.reverse := by
    have := congrArg List.reverse hsplit
    simpa using this
  refine ⟨by simp [hxs], hp, ?_⟩
  intro b hb hpb
  rw [hxs] at hb hs
  rcases List.mem_append.mp hb with hb | hb
  · exact (List.pairwise_append.mp hs).2.2 b hb a (by simp)
  · rcases List.mem_cons.mp hb with rfl | hb
    · exact le_rfl
    · have := hnone b (List.mem_reverse.mp hb)
      simp [hpb] at this

end Bbkar.KeySort
