import Mathlib.Init
import Mathlib.Tactic.TypeStar

/-!
# Computations that fail without losing their effects

A computation returns a value or an error, and the state it has reached stays in both
cases. The weakest precondition of a computation has one postcondition for either
outcome. A session runs computations one after the other and goes on after errors.
-/
namespace Bbkar.Effects

abbrev Exec (ε σ α : Type) := ExceptT ε (StateM σ) α

variable {ε σ α β : Type}

def outcome (x : Exec ε σ α) (s : σ) : Except ε α × σ := x.run.run s

/-- `x` started in `s` ends with `Q` when it returns and with `E` when it fails. -/
def wp (x : Exec ε σ α) (Q : α → σ → Prop) (E : ε → σ → Prop) (s : σ) : Prop :=
  match outcome x s with
  | (.ok a, t) => Q a t
  | (.error e, t) => E e t

/-- Runs `x`, and changes the state by `f` in case it fails. -/
def afterError (x : Exec ε σ α) (f : σ → σ) : Exec ε σ α :=
  ExceptT.mk fun s =>
    match outcome x s with
    | (.ok a, t) => (.ok a, t)
    | (.error e, t) => (.error e, f t)

/-- A computation on a part of the state. -/
def zoom {τ : Type} (part : τ → σ) (put : σ → τ → τ) (x : Exec ε σ α) : Exec ε τ α :=
  ExceptT.mk fun t => ((outcome x (part t)).1, put (outcome x (part t)).2 t)

variable {x : Exec ε σ α} {f : α → Exec ε σ β} {Q Q' : α → σ → Prop} {R : β → σ → Prop}
  {E E' : ε → σ → Prop} {s : σ}

@[simp] theorem wp_pure (a : α) : wp (pure a : Exec ε σ α) Q E s ↔ Q a s := Iff.rfl

@[simp] theorem wp_throw (e : ε) : wp (throw e : Exec ε σ α) Q E s ↔ E e s := Iff.rfl

@[simp] theorem wp_get {Q : σ → σ → Prop} : wp (get : Exec ε σ σ) Q E s ↔ Q s s := Iff.rfl

@[simp] theorem wp_modify {Q : PUnit → σ → Prop} (g : σ → σ) :
    wp (modify g : Exec ε σ PUnit) Q E s ↔ Q ⟨⟩ (g s) := Iff.rfl

theorem outcome_bind : outcome (x >>= f) s =
    match outcome x s with
    | (.ok a, t) => outcome (f a) t
    | (.error e, t) => (.error e, t) := by
  change (ExceptT.bindCont f (outcome x s).1).run (outcome x s).2 = _
  rcases outcome x s with ⟨_ | _, _⟩ <;> rfl

@[simp] theorem wp_bind : wp (x >>= f) R E s ↔ wp x (fun a t => wp (f a) R E t) E s := by
  unfold wp
  rw [outcome_bind]
  rcases outcome x s with ⟨_ | _, _⟩ <;> rfl

@[simp] theorem wp_liftExcept (r : Except ε α) :
    wp (liftExcept r : Exec ε σ α) Q E s ↔
      (∀ a, r = .ok a → Q a s) ∧ ∀ e, r = .error e → E e s := by
  cases r <;> simp [liftExcept]

@[simp] theorem wp_afterError (g : σ → σ) :
    wp (afterError x g) Q E s ↔ wp x Q (fun e t => E e (g t)) s := by
  have h : outcome (afterError x g) s =
      match outcome x s with
      | (.ok a, t) => (.ok a, t)
      | (.error e, t) => (.error e, g t) := rfl
  unfold wp
  rw [h]
  rcases outcome x s with ⟨_ | _, _⟩ <;> rfl

@[simp] theorem wp_zoom {τ : Type} {part : τ → σ} {put : σ → τ → τ} {Q : α → τ → Prop}
    {E : ε → τ → Prop} {t : τ} :
    wp (zoom part put x) Q E t ↔
      wp x (fun a s => Q a (put s t)) (fun e s => E e (put s t)) (part t) := by
  have h : outcome (zoom part put x) t =
      ((outcome x (part t)).1, put (outcome x (part t)).2 t) := rfl
  unfold wp
  rw [h]
  rcases outcome x (part t) with ⟨_ | _, _⟩ <;> rfl

theorem wp_mono (h : wp x Q E s) (hQ : ∀ a t, Q a t → Q' a t) (hE : ∀ e t, E e t → E' e t) :
    wp x Q' E' s := by
  unfold wp at h ⊢
  generalize outcome x s = r at h ⊢
  rcases r with ⟨_ | _, _⟩
  · exact hE _ _ h
  · exact hQ _ _ h

theorem wp_true : wp x (fun _ _ => True) (fun _ _ => True) s := by
  unfold wp
  rcases outcome x s with ⟨_ | _, _⟩ <;> trivial

/-- Only the outcome of a computation that returns is weakened. -/
theorem wp_mono_ok (h : wp x Q E s) (hQ : ∀ a t, Q a t → Q' a t) : wp x Q' E s :=
  wp_mono h hQ fun _ _ he => he

/-- Two facts about the same computation together. -/
theorem wp_and (h : wp x Q E s) (h' : wp x Q' E' s) :
    wp x (fun a t => Q a t ∧ Q' a t) (fun e t => E e t ∧ E' e t) s := by
  unfold wp at h h' ⊢
  generalize outcome x s = r at h h' ⊢
  rcases r with ⟨_ | _, _⟩ <;> exact ⟨h, h'⟩

theorem wp_of_ok {a : α} {s' : σ} (h : outcome x s = (.ok a, s')) : wp x Q E s ↔ Q a s' := by
  unfold wp
  rw [h]

theorem wp_of_error {e : ε} {s' : σ} (h : outcome x s = (.error e, s')) :
    wp x Q E s ↔ E e s' := by
  unfold wp
  rw [h]

theorem wp_ok {a : α} {t : σ} (h : wp x Q E s) (hx : outcome x s = (.ok a, t)) : Q a t :=
  (wp_of_ok hx).mp h

/-- A computation that does not fail returns. -/
theorem exists_of_wp (h : wp x Q (fun _ _ => False) s) :
    ∃ a t, outcome x s = (.ok a, t) ∧ Q a t := by
  rcases hx : outcome x s with ⟨e | a, t⟩
  · exact ((wp_of_error hx).mp h).elim
  · exact ⟨a, t, rfl, (wp_of_ok hx).mp h⟩

/-- A computation that does not return fails. -/
theorem exists_of_wp_error (h : wp x (fun _ _ => False) E s) :
    ∃ e t, outcome x s = (.error e, t) ∧ E e t := by
  rcases hx : outcome x s with ⟨e | a, t⟩
  · exact ⟨e, t, rfl, (wp_of_error hx).mp h⟩
  · exact ((wp_of_ok hx).mp h).elim

theorem exists_of_isOk (h : (outcome x s).1.isOk = true) :
    ∃ a t, outcome x s = (.ok a, t) := by
  rcases hx : outcome x s with ⟨e | a, t⟩
  · simp [hx, Except.isOk, Except.toBool] at h
  · exact ⟨a, t, rfl⟩

/-- The loop rule: the invariant speaks about what is left to go over. -/
theorem wp_foldlM {f : β → α → Exec ε σ β} {I : List α → β → σ → Prop} (xs : List α) (b : β)
    (hstep : ∀ a rest b s, I (a :: rest) b s → wp (f b a) (I rest) E s)
    (h : I xs b s) : wp (xs.foldlM f b) (I []) E s := by
  induction xs generalizing b s with
  | nil => exact h
  | cons a xs ih =>
    rw [List.foldlM_cons, wp_bind]
    exact wp_mono_ok (hstep a xs b s h) (fun b t hb => ih b hb)

theorem wp_forM_cons {f : α → Exec ε σ PUnit} {a : α} {xs : List α} {Q : PUnit → σ → Prop} :
    wp ((a :: xs).forM f) Q E s ↔ wp (f a) (fun _ => wp (xs.forM f) Q E) E s := by
  change wp (f a >>= fun _ => xs.forM f) Q E s ↔ _
  rw [wp_bind]

/-- The same for a loop that only acts. -/
theorem wp_forM {f : α → Exec ε σ PUnit} {I : List α → σ → Prop} (xs : List α)
    (hstep : ∀ a rest s, I (a :: rest) s → wp (f a) (fun _ => I rest) E s) (h : I xs s) :
    wp (xs.forM f) (fun _ => I []) E s := by
  induction xs generalizing s with
  | nil => exact h
  | cons a xs ih =>
    rw [wp_forM_cons]
    exact wp_mono_ok (hstep a xs s h) (fun _ t ht => ih ht)

/-- A property of states that a computation keeps, whether it returns or fails. -/
def Preserves (I : σ → Prop) (x : Exec ε σ α) : Prop :=
  ∀ s, I s → wp x (fun _ => I) (fun _ => I) s

theorem Preserves.final {I : σ → Prop} (hx : Preserves I x) (hs : I s) :
    I (outcome x s).2 := by
  have h := hx s hs
  unfold wp at h
  generalize outcome x s = r at h ⊢
  rcases r with ⟨_ | _, _⟩ <;> exact h

/-- One computation after the other, each from the state the one before has left. -/
def session (xs : List (Exec ε σ α)) (s : σ) : σ :=
  xs.foldl (fun s x => (outcome x s).2) s

/-- What every computation of a session preserves holds at its end. -/
theorem session_invariant {I : σ → Prop} (xs : List (Exec ε σ α))
    (h : ∀ x ∈ xs, Preserves I x) (hs : I s) : I (session xs s) := by
  induction xs generalizing s with
  | nil => exact hs
  | cons x xs ih =>
    exact ih (fun y hy => h y (List.mem_cons_of_mem _ hy)) ((h x (by simp)).final hs)

end Bbkar.Effects
