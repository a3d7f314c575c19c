import Mathlib.Data.Nat.Notation
import Mathlib.Tactic.TypeStar

/-!
# Costs of two runs over one list

Two step relations go over the same list, and every step has a cost. A relation between
their states carries a credit: a step of the first may cost more than the step of the other
by what the credit pays for. Over the whole list the first run costs no more than the other
and the credit at the start.
-/
namespace Bbkar.CostRuns

variable {σ τ α : Type*}

/-- A run over a list, with the sum of the costs of its steps. -/
inductive CostRun (S : σ → α → ℕ → σ → Prop) : σ → List α → ℕ → σ → Prop
  | nil {s : σ} : CostRun S s [] 0 s
  | cons {s s' s'' : σ} {a : α} {as : List α} {c n : ℕ} (h : S s a c s')
      (rest : CostRun S s' as n s'') : CostRun S s (a :: as) (c + n) s''

/-- `R k as s t` relates the states in front of the elements `as`, with the credit `k`. -/
def PaysFor (S : σ → α → ℕ → σ → Prop) (T : τ → α → ℕ → τ → Prop)
    (R : ℕ → List α → σ → τ → Prop) : Prop :=
  ∀ k a as s s' t t' c d, R k (a :: as) s t → S s a c s' → T t a d t' →
    ∃ k', c + k' ≤ d + k ∧ R k' as s' t'

theorem CostRun.le_add {S : σ → α → ℕ → σ → Prop} {T : τ → α → ℕ → τ → Prop}
    {R : ℕ → List α → σ → τ → Prop} (hpays : PaysFor S T R) {as : List α} {s s' : σ}
    {t t' : τ} {k m n : ℕ} (hR : R k as s t) (hs : CostRun S s as m s')
    (ht : CostRun T t as n t') : m ≤ n + k := by
  induction hs generalizing t k n with
  | nil => omega
  | @cons s s' s'' a as c m h rest ih =>
    cases ht with
    | @cons _ t₁ _ _ _ d n h' rest' =>
      obtain ⟨k', hk, hR'⟩ := hpays k a as s s' t t₁ c d hR h h'
      have hrest : m ≤ n + k' := ih hR' rest'
      omega

end Bbkar.CostRuns
