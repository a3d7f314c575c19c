import Bbkar.Paired

/-!
# Two computations in lockstep

Two computations run in lockstep from related states when both return related values, or
both fail with the same error, and the states they end in are related again. The relation
between the states is kept by every step, as an invariant is.
-/
namespace Bbkar.Effects

variable {ε σ τ α α' β β' : Type} {x : Exec ε σ α} {y : Exec ε τ α'}

/-- Both go the same way from related states, up to `V` in the values they return. -/
def Lockstep (R : σ → τ → Prop) (V : α → α' → Prop) (x : Exec ε σ α) (y : Exec ε τ α') : Prop :=
  ∀ s t, R s t → wp x
    (fun a s' => wp y (fun a' t' => V a a' ∧ R s' t') (fun _ _ => False) t)
    (fun e s' => wp y (fun _ _ => False) (fun e' t' => e' = e ∧ R s' t') t) s

variable {R : σ → τ → Prop} {V : α → α' → Prop} {W : β → β' → Prop} {f : α → Exec ε σ β}
  {g : α' → Exec ε τ β'}

/-- Both go the same way from this pair of states, to related ones. -/
def InStep (R : σ → τ → Prop) (V : α → α' → Prop) (x : Exec ε σ α) (y : Exec ε τ α') (s : σ)
    (t : τ) : Prop :=
  Paired (fun a s' a' t' => V a a' ∧ R s' t') R x y s t

theorem Lockstep.inStep (h : Lockstep R V x y) {s : σ} {t : τ} (hR : R s t) :
    InStep R V x y s t := h s t hR

/-- Both return, or both fail. -/
theorem InStep.cases {s : σ} {t : τ} (h : InStep R V x y s t) :
    (∃ a a' s' t', outcome x s = (.ok a, s') ∧ outcome y t = (.ok a', t') ∧ V a a' ∧ R s' t') ∨
      ∃ e s' t', outcome x s = (.error e, s') ∧ outcome y t = (.error e, t') ∧ R s' t' :=
  Paired.cases h

theorem Lockstep.cases (h : Lockstep R V x y) {s : σ} {t : τ} (hR : R s t) :
    (∃ a a' s' t', outcome x s = (.ok a, s') ∧ outcome y t = (.ok a', t') ∧ V a a' ∧ R s' t') ∨
      ∃ e s' t', outcome x s = (.error e, s') ∧ outcome y t = (.error e, t') ∧ R s' t' :=
  (h.inStep hR).cases

theorem lockstep_pure {a : α} {a' : α'} (h : V a a') :
    Lockstep R V (pure a : Exec ε σ α) (pure a' : Exec ε τ α') :=
  fun _ _ hR => ⟨h, hR⟩

theorem lockstep_throw (e : ε) :
    Lockstep R V (throw e : Exec ε σ α) (throw e : Exec ε τ α') :=
  fun _ _ hR => ⟨rfl, hR⟩

theorem lockstep_get : Lockstep R R (get : Exec ε σ σ) (get : Exec ε τ τ) :=
  fun _ _ hR => ⟨hR, hR⟩

theorem lockstep_modify {k : σ → σ} {k' : τ → τ} (h : ∀ s t, R s t → R (k s) (k' t)) :
    Lockstep R (fun _ _ => True) (modify k : Exec ε σ PUnit) (modify k' : Exec ε τ PUnit) :=
  fun s t hR => ⟨trivial, h s t hR⟩

/-- A computation is in lockstep with itself. -/
theorem lockstep_self (x : Exec ε σ α) : Lockstep Eq Eq x x := by
  rintro s _ rfl
  rcases hx : outcome x s with ⟨e | a, s'⟩
  · exact (wp_of_error hx).mpr ((wp_of_error hx).mpr ⟨rfl, rfl⟩)
  · exact (wp_of_ok hx).mpr ((wp_of_ok hx).mpr ⟨rfl, rfl⟩)

/-- What follows has to be in lockstep from the states that are reached only. -/
theorem InStep.bind {s : σ} {t : τ} (h : InStep R V x y s t)
    (hf : ∀ a a', V a a' → Lockstep R W (f a) (g a')) :
    InStep R W (x >>= f) (y >>= g) s t :=
  Paired.bind h fun a s' a' t' hq => hf a a' hq.1 s' t' hq.2

theorem lockstep_bind (h : Lockstep R V x y)
    (hf : ∀ a a', V a a' → Lockstep R W (f a) (g a')) :
    Lockstep R W (x >>= f) (y >>= g) :=
  fun _ _ hR => (h.inStep hR).bind hf

theorem lockstep_afterError {k : σ → σ} {k' : τ → τ} (h : Lockstep R V x y)
    (hk : ∀ s t, R s t → R (k s) (k' t)) :
    Lockstep R V (afterError x k) (afterError y k') := by
  intro s t hR
  rcases h.cases hR with ⟨a, a', s', t', hx, hy, hv, hR'⟩ | ⟨e, s', t', hx, hy, hR'⟩
  · simp only [wp_afterError, wp_of_ok hx, wp_of_ok hy]
    exact ⟨hv, hR'⟩
  · simp only [wp_afterError, wp_of_error hx, wp_of_error hy]
    exact ⟨trivial, hk s' t' hR'⟩

/-- Parts of two states in step, where the rest stays related. -/
theorem InStep.zoom {υ φ : Type} {part : υ → σ} {put : σ → υ → υ} {part' : φ → τ}
    {put' : τ → φ → φ} {R' : υ → φ → Prop} {s : υ} {t : φ}
    (h : InStep R V x y (part s) (part' t))
    (hput : ∀ s' t', R s' t' → R' (put s' s) (put' t' t)) :
    InStep R' V (zoom part put x) (zoom part' put' y) s t := by
  unfold InStep Paired
  rcases h.cases with ⟨a, a', s', t', hx, hy, hv, hR'⟩ | ⟨e, s', t', hx, hy, hR'⟩
  · simp only [wp_zoom, wp_of_ok hx, wp_of_ok hy]
    exact ⟨hv, hput s' t' hR'⟩
  · simp only [wp_zoom, wp_of_error hx, wp_of_error hy]
    exact ⟨trivial, hput s' t' hR'⟩

/-- The same loop on both sides keeps the relation between the accumulators. -/
theorem lockstep_foldlM {γ : Type} {p : α → γ → Exec ε σ α} {q : α' → γ → Exec ε τ α'}
    (xs : List γ) (h : ∀ c ∈ xs, ∀ a a', V a a' → Lockstep R V (p a c) (q a' c)) {a : α} {a' : α'}
    (ha : V a a') : Lockstep R V (xs.foldlM p a) (xs.foldlM q a') := by
  induction xs generalizing a a' with
  | nil => exact lockstep_pure ha
  | cons c xs ih =>
    rw [List.foldlM_cons, List.foldlM_cons]
    exact lockstep_bind (h c (by simp) a a' ha)
      fun b b' hb => ih (fun c hc => h c (List.mem_cons_of_mem _ hc)) hb

end Bbkar.Effects
