import Mathlib.Logic.Relation
import Mathlib.Logic.Function.Basic

/-!
# Interleaving

Processes that share a state take turns. Each has a place of its own, and its steps may change
both. What is said about the places holds in every order of turns when the steps of a process
keep what is said about it, and do not interfere with what is said about the others.
-/
namespace Bbkar.Interleaving
open Relation Function

variable {ι σ π : Type*} [DecidableEq ι]

/-- The shared state, and the place of each process. -/
structure Shared (ι σ π : Type*) where
  state : σ
  place : ι → π

namespace Shared

/-- A process has gone on. -/
def advance (s : Shared ι σ π) (i : ι) (next : σ × π) : Shared ι σ π :=
  ⟨next.1, update s.place i next.2⟩

/-- What a process sees. -/
def view (s : Shared ι σ π) (i : ι) : σ × π := (s.state, s.place i)

@[simp] theorem advance_state (s : Shared ι σ π) (i : ι) (next : σ × π) :
    (s.advance i next).state = next.1 := rfl

@[simp] theorem advance_place (s : Shared ι σ π) (i : ι) (next : σ × π) :
    (s.advance i next).place i = next.2 := update_self ..

@[simp] theorem view_advance (s : Shared ι σ π) (i : ι) (next : σ × π) :
    (s.advance i next).view i = next := Prod.ext rfl (s.advance_place i next)

theorem advance_of_ne (s : Shared ι σ π) {i j : ι} (h : j ≠ i) (next : σ × π) :
    (s.advance i next).place j = s.place j := update_of_ne h ..

@[simp] theorem advance_view (s : Shared ι σ π) (i : ι) : s.advance i (s.view i) = s :=
  congrArg (Shared.mk s.state) (update_eq_self i s.place)

@[simp] theorem advance_advance (s : Shared ι σ π) (i : ι) (next next' : σ × π) :
    (s.advance i next).advance i next' = s.advance i next' :=
  congrArg (Shared.mk next'.1) (update_idem ..)

end Shared

variable {step : σ × π → σ × π → Prop} {C : Shared ι σ π → Prop} {s s' : Shared ι σ π}

/-- One process makes one step. -/
inductive Turn (step : σ × π → σ × π → Prop) (s : Shared ι σ π) : Shared ι σ π → Prop
  | step (i : ι) (next : σ × π) : step (s.view i) next → Turn step s (s.advance i next)

/-- Turns after each of which the condition holds. -/
def Turns (step : σ × π → σ × π → Prop) (C : Shared ι σ π → Prop) :
    Shared ι σ π → Shared ι σ π → Prop :=
  ReflTransGen fun s s' => Turn step s s' ∧ C s'

/-- What a process does alone is an order of turns. -/
theorem turns_alone (s : Shared ι σ π) (i : ι) {next : σ × π}
    (h : ReflTransGen step (s.view i) next) :
    Turns step (fun _ => True) s (s.advance i next) := by
  induction h with
  | refl =>
    rw [Shared.advance_view]
    exact .refl
  | @tail mid next _ hstep ih =>
    have hturn : Turn step (s.advance i mid) ((s.advance i mid).advance i next) :=
      .step i next ((s.view_advance i mid).symm ▸ hstep)
    rw [Shared.advance_advance] at hturn
    exact ih.tail ⟨hturn, trivial⟩

/-- A condition that all turns keep may be dropped. -/
theorem Turns.of_kept (h : Turns step (fun _ => True) s s')
    (hkept : ∀ t, Turns step (fun _ => True) s t → C t) : Turns step C s s' := by
  induction h with
  | refl => exact .refl
  | @tail mid s' hmid hturn ih => exact ih.tail ⟨hturn.1, hkept s' (hmid.tail hturn)⟩

/-- A proof outline. While `C` holds, a step keeps `G` of the state and `L` of its own place,
changes the state as `R` allows, and does not interfere with `L` of any other place. -/
structure Outline (step : σ × π → σ × π → Prop) (C : Shared ι σ π → Prop) (G : σ → Prop)
    (L : ι → σ × π → Prop) (R : σ → σ → Prop) : Prop where
  refl : ∀ state, R state state
  trans : ∀ {s₁ s₂ s₃}, R s₁ s₂ → R s₂ s₃ → R s₁ s₃
  own : ∀ (s : Shared ι σ π) i next, G s.state → L i (s.view i) → step (s.view i) next →
    G next.1 ∧ L i next ∧ R s.state next.1
  other : ∀ (s : Shared ι σ π) i j next, C s → j ≠ i → G s.state → L i (s.view i) →
    L j (s.view j) → step (s.view i) next → L j (next.1, s.place j)

/-- Then these hold after any turns. -/
theorem Outline.turns {G : σ → Prop} {L : ι → σ × π → Prop} {R : σ → σ → Prop}
    (h : Outline step C G L R) (hturns : Turns step C s s') (hC : C s) (hG : G s.state)
    (hL : ∀ i, L i (s.view i)) :
    C s' ∧ G s'.state ∧ (∀ i, L i (s'.view i)) ∧ R s.state s'.state := by
  induction hturns with
  | refl => exact ⟨hC, hG, hL, h.refl _⟩
  | @tail mid s' _ hturn ih =>
    obtain ⟨hCm, hGm, hLm, hRm⟩ := ih
    obtain ⟨⟨i, next, hstep⟩, hC'⟩ := hturn
    obtain ⟨hG', hL', hR'⟩ := h.own mid i next hGm (hLm i) hstep
    refine ⟨hC', hG', fun j => ?_, h.trans hRm hR'⟩
    by_cases hj : j = i
    · subst hj
      rw [Shared.view_advance]
      exact hL'
    · rw [Shared.view, Shared.advance_of_ne mid hj, Shared.advance_state]
      exact h.other mid i j next hCm hj hGm (hLm i) (hLm j) hstep

end Bbkar.Interleaving
