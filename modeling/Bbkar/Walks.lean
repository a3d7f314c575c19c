import Mathlib.Data.List.Chain
import Mathlib.Data.List.Nodup
import Mathlib.Data.List.Perm.Subperm
import Mathlib.Logic.Relation

/-!
# Walks and cycles

A walk is a list in which every node is related to the next one. A walk with more nodes than
there are to visit contains a cycle, and from an accessible node none can be reached.
-/
namespace Bbkar.Walks
open Relation

variable {α : Type*} {R : α → α → Prop}

theorem pairwise_transGen {l : List α} (h : l.IsChain R) : l.Pairwise (TransGen R) :=
  (h.imp fun _ _ => TransGen.single).pairwise

/-- A walk that visits a node twice has come back to it. -/
theorem exists_cycle_of_not_nodup {l : List α} (h : l.IsChain R) (hn : ¬ l.Nodup) :
    ∃ x ∈ l, TransGen R x x := by
  rw [List.nodup_iff_sublist, not_forall] at hn
  obtain ⟨x, hx⟩ := hn
  rw [not_not] at hx
  have htwice := (pairwise_transGen h).sublist hx
  exact ⟨x, hx.subset (by simp), by simpa using htwice⟩

theorem exists_cycle_of_length_lt {l xs : List α} (h : l.IsChain R) (hsub : l ⊆ xs)
    (hlt : xs.length < l.length) : ∃ x ∈ l, TransGen R x x := by
  refine exists_cycle_of_not_nodup h fun hn => ?_
  have hle := (hn.subperm hsub).length_le
  omega

theorem reflTransGen_of_mem {x y : α} {l : List α} (h : (x :: l).IsChain R)
    (hy : y ∈ x :: l) : ReflTransGen R x y := by
  rcases List.mem_cons.mp hy with rfl | hy
  · exact .refl
  · exact ((List.pairwise_cons.mp (pairwise_transGen h)).1 y hy).to_reflTransGen

/-- No cycle can be reached from a node where every walk ends. -/
theorem not_cycle_of_acc {x y : α} (h : Acc (fun b a => R a b) x) (hxy : ReflTransGen R x y) :
    ¬ TransGen R y y := by
  induction h with
  | intro x _ ih =>
    intro hcycle
    rcases ReflTransGen.cases_head hxy with rfl | ⟨z, hxz, hzy⟩
    · obtain ⟨z, hxz, hzx⟩ := TransGen.head'_iff.mp hcycle
      exact ih z hxz hzx hcycle
    · exact ih z hxz hzy hcycle

end Bbkar.Walks
