import Bbkar.Effects
import Mathlib.Data.List.Induction

/-!
# What computations keep

Rules for properties of the state that a computation keeps, whether it returns or fails. There
is one for each way to put computations together. The invariant of a session may speak about
what has been run before.
-/
namespace Bbkar.Effects

variable {ε σ τ α β : Type} {I : σ → Prop} {x : Exec ε σ α}

theorem preserves_pure (a : α) : Preserves I (pure a : Exec ε σ α) := fun _ hs => hs

theorem preserves_throw (e : ε) : Preserves I (throw e : Exec ε σ α) := fun _ hs => hs

theorem preserves_get : Preserves I (get : Exec ε σ σ) := fun _ hs => hs

theorem preserves_modify {g : σ → σ} (h : ∀ s, I s → I (g s)) :
    Preserves I (modify g : Exec ε σ PUnit) := h

theorem preserves_liftExcept (r : Except ε α) : Preserves I (liftExcept r : Exec ε σ α) := by
  intro s hs
  rw [wp_liftExcept]
  exact ⟨fun _ _ => hs, fun _ _ => hs⟩

theorem Preserves.bind {f : α → Exec ε σ β} (hx : Preserves I x) (hf : ∀ a, Preserves I (f a)) :
    Preserves I (x >>= f) := by
  intro s hs
  rw [wp_bind]
  exact wp_mono_ok (hx s hs) fun a t ht => hf a t ht

theorem Preserves.afterError {g : σ → σ} (hx : Preserves I x) (hg : ∀ s, I s → I (g s)) :
    Preserves I (afterError x g) := by
  intro s hs
  rw [wp_afterError]
  exact wp_mono (hx s hs) (fun _ _ ht => ht) fun _ t ht => hg t ht

/-- A computation on a part of the state keeps what that part is in. -/
theorem Preserves.zoom {J : τ → Prop} {part : τ → σ} {put : σ → τ → τ} (hx : Preserves I x)
    (hpart : ∀ t, J t → I (part t)) (hput : ∀ s t, J t → I s → J (put s t)) :
    Preserves J (zoom part put x) := by
  intro t ht
  rw [wp_zoom]
  exact wp_mono (hx (part t) (hpart t ht)) (fun _ s hs => hput s t ht hs)
    fun _ s hs => hput s t ht hs

theorem preserves_foldlM {f : β → α → Exec ε σ β} (hf : ∀ b a, Preserves I (f b a)) (xs : List α)
    (b : β) : Preserves I (xs.foldlM f b) :=
  fun _ hs => wp_foldlM (I := fun _ _ s => I s) xs b (fun a _ b s hs => hf b a s hs) hs

theorem preserves_forM {f : α → Exec ε σ PUnit} (hf : ∀ a, Preserves I (f a)) (xs : List α) :
    Preserves I (xs.forM f) :=
  fun _ hs => wp_forM (I := fun _ s => I s) xs (fun a _ s hs => hf a s hs) hs

theorem Preserves.and {J : σ → Prop} (hx : Preserves I x) (hx' : Preserves J x) :
    Preserves (fun s => I s ∧ J s) x :=
  fun s hs => wp_mono (wp_and (hx s hs.1) (hx' s hs.2)) (fun _ _ h => h) fun _ _ h => h

/-! ## Sessions and what happened in them -/

section Sessions

variable {γ : Type} {P : List γ → γ → Prop}

/-- Some element of the list has the property, in view of those before it. -/
def Occurs (P : List γ → γ → Prop) (xs : List γ) : Prop :=
  ∃ before x after, xs = before ++ x :: after ∧ P before x

theorem not_occurs_nil : ¬ Occurs P [] := by
  rintro ⟨before, x, after, h, -⟩
  simp at h

theorem occurs_concat {xs : List γ} {x : γ} :
    Occurs P (xs ++ [x]) ↔ Occurs P xs ∨ P xs x := by
  constructor
  · rintro ⟨before, y, after, h, hy⟩
    rcases List.eq_nil_or_concat after with rfl | ⟨after', z, rfl⟩
    · obtain ⟨rfl, hx⟩ := List.append_inj' h rfl
      obtain rfl : x = y := by simpa using hx
      exact Or.inr hy
    · rw [List.concat_eq_append, ← List.cons_append, ← List.append_assoc] at h
      obtain ⟨rfl, -⟩ := List.append_inj' h rfl
      exact Or.inl ⟨before, y, after', rfl, hy⟩
  · rintro (⟨before, y, after, rfl, hy⟩ | hx)
    · exact ⟨before, y, after ++ [x], by simp, hy⟩
    · exact ⟨xs, x, [], rfl, hx⟩

theorem wp_final {R : σ → Prop} {s : σ} (h : wp x (fun _ => R) (fun _ => R) s) :
    R (outcome x s).2 := by
  unfold wp at h
  generalize outcome x s = r at h ⊢
  rcases r with ⟨_ | _, _⟩ <;> exact h

theorem session_concat (xs : List (Exec ε σ α)) (x : Exec ε σ α) (s : σ) :
    session (xs ++ [x]) s = (outcome x (session xs s)).2 := by
  simp [session]

/-- What one computation after those before it keeps holds at the end of the session. -/
theorem session_history {f : γ → Exec ε σ α} {K : List γ → σ → Prop} {s : σ} {xs : List γ}
    (hnil : K [] s)
    (hstep : ∀ before, ∀ x ∈ xs, K before (session (before.map f) s) →
      wp (f x) (fun _ => K (before ++ [x])) (fun _ => K (before ++ [x]))
        (session (before.map f) s)) :
    K xs (session (xs.map f) s) := by
  induction xs using List.reverseRecOn with
  | nil => exact hnil
  | append_singleton xs x ih =>
    have hbefore := ih fun before y hy => hstep before y (List.mem_append_left _ hy)
    have hlast := hstep xs x (by simp) hbefore
    rw [List.map_append, List.map_singleton, session_concat]
    exact wp_final hlast

end Sessions

end Bbkar.Effects
