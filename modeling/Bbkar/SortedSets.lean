import Bbkar.KeySort
import Mathlib.Data.List.Dedup

/-!
# Ordered sets and tables of a union

An ordered set is iterated in strictly increasing order. The table of two sets has one row
for each member of their union, labelled by the sets that it belongs to.
-/
namespace Bbkar.SortedSets
open KeySort

variable {α σ ε : Type}

theorem mapM_eq_map {β : Type} {f : α → Except ε β} {g : α → β} (xs : List α)
    (h : ∀ x ∈ xs, f x = .ok (g x)) : xs.mapM f = .ok (xs.map g) := by
  induction xs with
  | nil => rfl
  | cons x xs ih =>
    rw [List.mapM_cons, h x List.mem_cons_self, ih fun y hy => h y (List.mem_cons_of_mem _ hy)]
    rfl

variable [LinearOrder α]

/-- What iterating over a set of these values gives. -/
def btreeSet (xs : List α) : List α := sortByKey id xs.dedup

@[simp] theorem mem_btreeSet {xs : List α} {x : α} : x ∈ btreeSet xs ↔ x ∈ xs := by
  rw [btreeSet, mem_sortByKey, List.mem_dedup]

theorem btreeSet_strict (xs : List α) : (btreeSet xs).Pairwise (· < ·) :=
  sortByKey_strict (by simpa using List.nodup_dedup xs)

variable (unreachable : ε) (onlyLeft onlyRight both : σ)

/-- The label of a value by its membership in two sets. -/
def unionLabel (inLeft inRight : Bool) : Except ε σ :=
  match inLeft, inRight with
  | true, false => .ok onlyLeft
  | false, true => .ok onlyRight
  | true, true => .ok both
  | false, false => .error unreachable

def unionTable (left right : List α) : Except ε (List (α × σ)) :=
  (btreeSet (left ++ right)).mapM fun x =>
    (unionLabel unreachable onlyLeft onlyRight both (decide (x ∈ left)) (decide (x ∈ right))).map
      fun label => (x, label)

/-- A table whose rows are those of the union, each once and in order. -/
structure IsUnionTable (left right : List α) (rows : List (α × σ)) : Prop where
  strict : (rows.map Prod.fst).Pairwise (· < ·)
  row : ∀ x label, (x, label) ∈ rows ↔
    (x ∈ left ∧ x ∉ right ∧ label = onlyLeft) ∨ (x ∉ left ∧ x ∈ right ∧ label = onlyRight) ∨
      (x ∈ left ∧ x ∈ right ∧ label = both)

/-- No row is unreachable. -/
theorem unionTable_spec (left right : List α) :
    ∃ rows, unionTable unreachable onlyLeft onlyRight both left right = .ok rows ∧
      IsUnionTable onlyLeft onlyRight both left right rows := by
  let label : α → σ := fun x => if x ∈ left then if x ∈ right then both else onlyLeft else onlyRight
  have hrows : unionTable unreachable onlyLeft onlyRight both left right =
      .ok ((btreeSet (left ++ right)).map fun x => (x, label x)) := by
    refine mapM_eq_map _ fun x hx => ?_
    rw [mem_btreeSet, List.mem_append] at hx
    by_cases hl : x ∈ left <;> by_cases hr : x ∈ right <;>
      simp_all [unionLabel, label, Except.map]
  refine ⟨_, hrows, ?_, ?_⟩
  · rw [List.map_map]
    simpa [Function.comp_def] using btreeSet_strict (left ++ right)
  · intro x l
    simp only [List.mem_map, Prod.mk.injEq, mem_btreeSet, List.mem_append]
    constructor
    · rintro ⟨y, hy, rfl, rfl⟩
      by_cases hl : y ∈ left <;> by_cases hr : y ∈ right <;> simp_all [label]
    · rintro (⟨hl, hr, rfl⟩ | ⟨hl, hr, rfl⟩ | ⟨hl, hr, rfl⟩)
      all_goals exact ⟨x, by simp [hl, hr], rfl, by simp [label, hl, hr]⟩

end Bbkar.SortedSets
