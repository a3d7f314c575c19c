import Mathlib.Order.WellFoundedSet
import Mathlib.Data.List.Sort
import Mathlib.Logic.Relation

/-!
# Forests given by parent pointers

A forest maps a name to nothing, to a root, or to a child with the name of its parent.
The lineage of a name is the list from its root down to it. Lineages are unique and grow
with the forest. When parents are smaller and present, every present name has one.
-/
namespace Bbkar.ParentForest
open Relation

variable {κ : Type*}

/-- `none` is an absent name, `some none` a root, `some (some p)` a child of `p`. -/
abbrev Forest (κ : Type*) := κ → Option (Option κ)

def Parent (F : Forest κ) (k p : κ) : Prop := F k = some (some p)

/-- The path from the root above `k` down to `k`. -/
inductive Lineage (F : Forest κ) : κ → List κ → Prop
  | root {k : κ} (h : F k = some none) : Lineage F k [k]
  | child {k p : κ} {l : List κ} (h : F k = some (some p)) (hp : Lineage F p l) :
      Lineage F k (l ++ [k])

namespace Lineage

variable {F G : Forest κ} {k : κ} {l m : List κ}

theorem present (h : Lineage F k l) : F k ≠ none := by
  cases h with
  | root h => simp [h]
  | child h _ => simp [h]

theorem ne_nil (h : Lineage F k l) : l ≠ [] := by
  cases h <;> simp

theorem self_mem (h : Lineage F k l) : k ∈ l := by
  cases h <;> simp

theorem unique (h : Lineage F k l) (h' : Lineage F k m) : l = m := by
  induction h generalizing m with
  | root h =>
    cases h' with
    | root _ => rfl
    | child hc _ => simp [h] at hc
  | child h _ ih =>
    cases h' with
    | root hr => simp [h] at hr
    | child hc hp =>
      have he := h.symm.trans hc
      simp only [Option.some.injEq] at he
      subst he
      rw [ih hp]

/-- A larger forest keeps every lineage. -/
theorem mono (hle : ∀ x v, F x = some v → G x = some v) (h : Lineage F k l) :
    Lineage G k l := by
  induction h with
  | root h => exact .root (hle _ _ h)
  | child h _ ih => exact .child (hle _ _ h) ih

/-- Every name on a lineage has the part of it that ends there as its own lineage. -/
theorem of_mem (h : Lineage F k l) {x : κ} (hx : x ∈ l) :
    ∃ m, Lineage F x m ∧ m <+: l := by
  induction h with
  | root h =>
    rw [List.mem_singleton] at hx
    subst hx
    exact ⟨_, .root h, List.prefix_rfl⟩
  | @child k p l h hp ih =>
    rcases List.mem_append.mp hx with hx | hx
    · obtain ⟨m, hm, hpre⟩ := ih hx
      exact ⟨m, hm, hpre.trans (List.prefix_append _ _)⟩
    · rw [List.mem_singleton] at hx
      subst hx
      exact ⟨_, .child h hp, List.prefix_rfl⟩

/-- The parent of a name on a lineage is on the lineage too. -/
theorem parent_mem (h : Lineage F k l) {x p : κ} (hx : x ∈ l) (hp : Parent F x p) : p ∈ l := by
  obtain ⟨m, hm, hpre⟩ := h.of_mem hx
  cases hm with
  | root hr => simp [Parent, hr] at hp
  | child hc hq =>
    have he := hp.symm.trans hc
    simp only [Option.some.injEq] at he
    subst he
    exact hpre.subset (List.mem_append_left _ hq.self_mem)

end Lineage

/-- Parents are present and strictly smaller. -/
def Older [LT κ] (F : Forest κ) : Prop := ∀ k p, Parent F k p → p < k ∧ F p ≠ none

/-- Only finitely many names are present. -/
def Supported (F : Forest κ) (names : List κ) : Prop := ∀ k, F k ≠ none → k ∈ names

theorem Lineage.sorted [Preorder κ] {F : Forest κ} (ho : Older F) {k : κ} {l : List κ}
    (h : Lineage F k l) : l.Pairwise (· < ·) ∧ ∀ x ∈ l, x ≤ k := by
  induction h with
  | root _ => simp
  | @child k p l h _ ih =>
    have hpk : p < k := (ho k p h).1
    have hlt : ∀ x ∈ l, x < k := fun x hx => (ih.2 x hx).trans_lt hpk
    refine ⟨List.pairwise_append.mpr ⟨ih.1, List.pairwise_singleton _ _, ?_⟩, ?_⟩
    · intro x hx y hy
      rw [List.mem_singleton.mp hy]
      exact hlt x hx
    · intro x hx
      rcases List.mem_append.mp hx with hx | hx
      · exact (hlt x hx).le
      · exact (List.mem_singleton.mp hx).le

/-- With smaller, present parents and finitely many names no walk upwards can go on. -/
theorem Older.exists_lineage [PartialOrder κ] {F : Forest κ} (ho : Older F) {names : List κ}
    (hs : Supported F names) {k : κ} (hk : F k ≠ none) : ∃ l, Lineage F k l := by
  have hfin : {x | x ∈ names}.Finite := List.finite_toSet names
  have hwf : {x | x ∈ names}.WellFoundedOn (· < ·) := hfin.wellFoundedOn
  let HasLineage : κ → Prop := fun x => F x ≠ none → ∃ l, Lineage F x l
  suffices h : HasLineage k from h hk
  refine hwf.induction (hs k hk) ?_
  intro x _ ih hx
  cases hFx : F x with
  | none => exact absurd hFx hx
  | some v =>
    cases v with
    | none => exact ⟨_, .root hFx⟩
    | some p =>
      obtain ⟨hlt, hp⟩ := ho x p hFx
      obtain ⟨l, hl⟩ := ih p (hs p hp) hlt hp
      exact ⟨_, .child hFx hl⟩

/-- Names other than a freshly added one keep their lineage, as it avoids the new name. -/
theorem Lineage.of_update [LT κ] [DecidableEq κ] {F : Forest κ} (ho : Older F) {k : κ}
    {v : Option (Option κ)} (hk : F k = none) {x : κ} {l : List κ}
    (h : Lineage (Function.update F k v) x l) (hx : x ≠ k) : Lineage F x l := by
  induction h with
  | root h => exact .root (by simpa [hx] using h)
  | @child x p l h _ ih =>
    have hp : F x = some (some p) := by simpa [hx] using h
    refine .child hp (ih ?_)
    rintro rfl
    exact (ho x p hp).2 hk

/-- The number of parents above a name, as far as the fuel reaches. -/
def depthWithin (F : Forest κ) : ℕ → κ → ℕ
  | 0, _ => 0
  | fuel + 1, k =>
    match F k with
    | some (some p) => depthWithin F fuel p + 1
    | _ => 0

theorem depthWithin_absent {F : Forest κ} {k : κ} (h : F k = none) (fuel : ℕ) :
    depthWithin F fuel k = 0 := by
  cases fuel <;> simp [depthWithin, h]

/-- Enough fuel counts the whole lineage. -/
theorem Lineage.depthWithin_add_one {F : Forest κ} {k : κ} {l : List κ} (h : Lineage F k l) :
    ∀ fuel, l.length ≤ fuel + 1 → depthWithin F fuel k + 1 = l.length := by
  induction h with
  | root h =>
    intro fuel _
    cases fuel <;> simp [depthWithin, h]
  | @child k p l h hp ih =>
    intro fuel hfuel
    have hpos := List.length_pos_iff.mpr hp.ne_nil
    rw [List.length_append, List.length_singleton] at hfuel ⊢
    cases fuel with
    | zero => omega
    | succ fuel =>
      have hcount := ih fuel (by omega)
      simp only [depthWithin, h]
      omega

/-- A set of names that contains the parents of its members. -/
def AncestorClosed (F : Forest κ) (S : κ → Prop) : Prop := ∀ k p, S k → Parent F k p → S p

/-- A name is in the closure of the targets when it lies on the lineage of one of them. -/
def Closure (F : Forest κ) (targets : κ → Prop) (k : κ) : Prop :=
  ∃ t, targets t ∧ ∃ l, Lineage F t l ∧ k ∈ l

theorem closure_ancestorClosed (F : Forest κ) (targets : κ → Prop) :
    AncestorClosed F (Closure F targets) := by
  rintro k p ⟨t, ht, l, hl, hk⟩ hp
  exact ⟨t, ht, l, hl, hl.parent_mem hk hp⟩

/-- A walk along one more edge `x → q` either avoids it or passes it. -/
theorem transGen_insert_edge {r : κ → κ → Prop} {x q a b : κ}
    (h : TransGen (fun u v => r u v ∨ (u = x ∧ v = q)) a b) :
    TransGen r a b ∨ (ReflTransGen r a x ∧ ReflTransGen r q b) := by
  induction h with
  | single h =>
    rcases h with h | ⟨rfl, rfl⟩
    · exact Or.inl (.single h)
    · exact Or.inr ⟨.refl, .refl⟩
  | tail _ h ih =>
    rcases h with h | ⟨rfl, rfl⟩
    · rcases ih with ih | ⟨hx, hq⟩
      · exact Or.inl (ih.tail h)
      · exact Or.inr ⟨hx, hq.tail h⟩
    · rcases ih with ih | ⟨hx, _⟩
      · exact Or.inr ⟨ih.to_reflTransGen, .refl⟩
      · exact Or.inr ⟨hx, .refl⟩

end Bbkar.ParentForest
