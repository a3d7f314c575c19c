import Bbkar.Effects

/-!
# Two computations side by side

Two computations are run from two states. They agree when both return or both fail with the
same error. The postconditions relate the values and the states they end with, so a value
on one side may stand for a part of the state on the other.
-/
namespace Bbkar.Effects

variable {ε σ τ α α' β β' γ : Type} {x : Exec ε σ α} {y : Exec ε τ α'} {f : α → Exec ε σ β}
  {g : α' → Exec ε τ β'} {Q Q' : α → σ → α' → τ → Prop} {R : β → σ → β' → τ → Prop}
  {E E' : σ → τ → Prop} {s : σ} {t : τ}

/-- Both return, with `Q` between values and states, or both fail with the same error and
with `E` between the states. -/
def Paired (Q : α → σ → α' → τ → Prop) (E : σ → τ → Prop) (x : Exec ε σ α) (y : Exec ε τ α')
    (s : σ) (t : τ) : Prop :=
  wp x (fun a s' => wp y (fun a' t' => Q a s' a' t') (fun _ _ => False) t)
    (fun e s' => wp y (fun _ _ => False) (fun e' t' => e' = e ∧ E s' t') t) s

theorem paired_ok {a : α} {a' : α'} {s' : σ} {t' : τ} (hx : outcome x s = (.ok a, s'))
    (hy : outcome y t = (.ok a', t')) : Paired Q E x y s t ↔ Q a s' a' t' := by
  unfold Paired
  rw [wp_of_ok hx, wp_of_ok hy]

theorem paired_error {e : ε} {s' : σ} {t' : τ} (hx : outcome x s = (.error e, s'))
    (hy : outcome y t = (.error e, t')) : Paired Q E x y s t ↔ E s' t' := by
  unfold Paired
  rw [wp_of_error hx, wp_of_error hy]
  exact and_iff_right rfl

theorem Paired.cases (h : Paired Q E x y s t) :
    (∃ a a' s' t', outcome x s = (.ok a, s') ∧ outcome y t = (.ok a', t') ∧ Q a s' a' t') ∨
      ∃ e s' t', outcome x s = (.error e, s') ∧ outcome y t = (.error e, t') ∧ E s' t' := by
  unfold Paired at h
  rcases hx : outcome x s with ⟨e | a, s'⟩ <;> rcases hy : outcome y t with ⟨e' | a', t'⟩
  · obtain ⟨rfl, hE⟩ := (wp_of_error hy).mp ((wp_of_error hx).mp h)
    exact Or.inr ⟨e', s', t', rfl, rfl, hE⟩
  · exact ((wp_of_ok hy).mp ((wp_of_error hx).mp h)).elim
  · exact ((wp_of_error hy).mp ((wp_of_ok hx).mp h)).elim
  · exact Or.inl ⟨a, a', s', t', rfl, rfl, (wp_of_ok hy).mp ((wp_of_ok hx).mp h)⟩

theorem Paired.mono (h : Paired Q E x y s t) (hQ : ∀ a s' a' t', Q a s' a' t' → Q' a s' a' t')
    (hE : ∀ s' t', E s' t' → E' s' t') : Paired Q' E' x y s t := by
  rcases h.cases with ⟨a, a', s', t', hx, hy, hq⟩ | ⟨e, s', t', hx, hy, he⟩
  · exact (paired_ok hx hy).mpr (hQ a s' a' t' hq)
  · exact (paired_error hx hy).mpr (hE s' t' he)

/-- What each side does by itself may be used on top. -/
theorem Paired.and {P : α → σ → Prop} {P' : α' → τ → Prop} {F : ε → σ → Prop}
    {F' : ε → τ → Prop} (h : Paired Q E x y s t) (hx : wp x P F s) (hy : wp y P' F' t) :
    Paired (fun a s' a' t' => Q a s' a' t' ∧ P a s' ∧ P' a' t')
      (fun s' t' => E s' t' ∧ (∃ e, F e s') ∧ ∃ e, F' e t') x y s t := by
  rcases h.cases with ⟨a, a', s', t', hout, hout', hq⟩ | ⟨e, s', t', hout, hout', he⟩
  · rw [wp_of_ok hout] at hx
    rw [wp_of_ok hout'] at hy
    exact (paired_ok hout hout').mpr ⟨hq, hx, hy⟩
  · rw [wp_of_error hout] at hx
    rw [wp_of_error hout'] at hy
    exact (paired_error hout hout').mpr ⟨he, ⟨e, hx⟩, e, hy⟩

theorem Paired.bind (h : Paired Q E x y s t)
    (hf : ∀ a s' a' t', Q a s' a' t' → Paired R E (f a) (g a') s' t') :
    Paired R E (x >>= f) (y >>= g) s t := by
  unfold Paired
  rcases h.cases with ⟨a, a', s', t', hx, hy, hq⟩ | ⟨e, s', t', hx, hy, he⟩
  · simp only [wp_bind, wp_of_ok hx, wp_of_ok hy]
    exact hf a s' a' t' hq
  · simp only [wp_bind, wp_of_error hx, wp_of_error hy]
    exact ⟨trivial, he⟩

theorem Paired.afterError {k : σ → σ} {k' : τ → τ} (h : Paired Q E x y s t)
    (hk : ∀ s' t', E s' t' → E' (k s') (k' t')) :
    Paired Q E' (afterError x k) (afterError y k') s t := by
  unfold Paired
  rcases h.cases with ⟨a, a', s', t', hx, hy, hq⟩ | ⟨e, s', t', hx, hy, he⟩
  · simp only [wp_afterError, wp_of_ok hx, wp_of_ok hy]
    exact hq
  · simp only [wp_afterError, wp_of_error hx, wp_of_error hy]
    exact ⟨trivial, hk s' t' he⟩

/-- The same result on both sides, whatever it is. -/
theorem paired_liftExcept {r : Except ε α} {Q : α → σ → α → τ → Prop}
    (hok : ∀ a, r = .ok a → Q a s a t) (herror : E s t) :
    Paired Q E (liftExcept r : Exec ε σ α) (liftExcept r : Exec ε τ α) s t := by
  cases r with
  | ok a => exact hok a rfl
  | error e => exact ⟨rfl, herror⟩

/-- The loop rule: the invariant speaks about what is left to go over on both sides. -/
theorem paired_foldlM {p : α → γ → Exec ε σ α} {q : α' → γ → Exec ε τ α'}
    {I : List γ → α → σ → α' → τ → Prop} (xs : List γ)
    (hstep : ∀ c rest a s a' t, I (c :: rest) a s a' t →
      Paired (I rest) E (p a c) (q a' c) s t)
    {a : α} {a' : α'} (h : I xs a s a' t) :
    Paired (I []) E (xs.foldlM p a) (xs.foldlM q a') s t := by
  induction xs generalizing a a' s t with
  | nil => exact h
  | cons c xs ih =>
    rw [List.foldlM_cons, List.foldlM_cons]
    exact (hstep c xs a s a' t h).bind fun _ _ _ _ h' => ih h'

/-- The same for a loop that only acts. -/
theorem paired_forM {p : γ → Exec ε σ PUnit} {q : γ → Exec ε τ PUnit} {I : σ → τ → Prop}
    (xs : List γ) (hstep : ∀ c ∈ xs, ∀ s t, I s t →
      Paired (fun _ s' _ t' => I s' t') E (p c) (q c) s t) (h : I s t) :
    Paired (fun _ s' _ t' => I s' t') E (xs.forM p) (xs.forM q) s t := by
  induction xs generalizing s t with
  | nil => exact h
  | cons c xs ih =>
    change Paired _ E (p c >>= fun _ => xs.forM p) (q c >>= fun _ => xs.forM q) s t
    apply (hstep c (by simp) s t h).bind
    intro _ s' _ t' h'
    exact ih (fun d hd => hstep d (List.mem_cons_of_mem _ hd)) h'

end Bbkar.Effects
