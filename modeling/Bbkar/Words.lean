import Mathlib.Data.List.DropRight

/-!
# Trimming and splitting at separators

Words are the longest runs without a separator. Trimming takes the separators off both ends
and changes no word.
-/
namespace Bbkar.Words

variable {α : Type} (p : α → Bool)

def trim (xs : List α) : List α := (xs.dropWhile p).rdropWhile p

/-- The word that a run of letters makes, if it is one. -/
def wordOf (run : List α) : List (List α) :=
  match run with
  | [] => []
  | x :: run => [x :: run]

/-- The words of `run ++ xs`, where `run` has no separator. -/
def wordsFrom (run : List α) : List α → List (List α)
  | [] => wordOf run
  | x :: xs => if p x then wordOf run ++ wordsFrom [] xs else wordsFrom (run ++ [x]) xs

def words (xs : List α) : List (List α) := wordsFrom p [] xs

variable {p}

theorem wordOf_ne_nil {run word : List α} (h : word ∈ wordOf run) : word ≠ [] := by
  cases run with
  | nil => simp [wordOf] at h
  | cons x run => simp [List.mem_singleton.mp h]

theorem wordsFrom_ne_nil {run xs word : List α} (h : word ∈ wordsFrom p run xs) : word ≠ [] := by
  induction xs generalizing run with
  | nil => exact wordOf_ne_nil h
  | cons x xs ih =>
    rw [wordsFrom] at h
    split_ifs at h
    · rcases List.mem_append.mp h with h | h
      · exact wordOf_ne_nil h
      · exact ih h
    · exact ih h

theorem wordsFrom_append_separator {run xs : List α} {x : α} (hx : p x = true) :
    wordsFrom p run (xs ++ [x]) = wordsFrom p run xs := by
  induction xs generalizing run with
  | nil => simp [wordsFrom, hx, wordOf]
  | cons y xs ih =>
    rw [List.cons_append, wordsFrom, wordsFrom, ih, ih]

/-- There are no words exactly when there are only separators. -/
theorem wordsFrom_eq_nil {run xs : List α} :
    wordsFrom p run xs = [] ↔ run = [] ∧ ∀ x ∈ xs, p x = true := by
  induction xs generalizing run with
  | nil => cases run <;> simp [wordsFrom, wordOf]
  | cons x xs ih =>
    rw [wordsFrom]
    split_ifs with hx
    · cases run <;> simp [wordOf, ih, hx]
    · simp [ih, hx]

theorem words_dropWhile (xs : List α) : words p (xs.dropWhile p) = words p xs := by
  induction xs with
  | nil => rfl
  | cons x xs ih =>
    rw [List.dropWhile_cons]
    split_ifs with hx
    · rw [ih, words, words, wordsFrom, if_pos hx]
      rfl
    · rfl

theorem words_rdropWhile (xs : List α) : words p (xs.rdropWhile p) = words p xs := by
  induction xs using List.reverseRecOn with
  | nil => rfl
  | append_singleton xs x ih =>
    by_cases hx : p x = true
    · rw [List.rdropWhile_concat_pos _ _ _ hx, ih]
      exact (wordsFrom_append_separator hx).symm
    · rw [List.rdropWhile_concat_neg _ _ _ hx]

@[simp] theorem words_trim (xs : List α) : words p (trim p xs) = words p xs := by
  rw [trim, words_rdropWhile, words_dropWhile]

/-- Nothing is left by trimming exactly when there are no words. -/
theorem trim_eq_nil {xs : List α} : trim p xs = [] ↔ words p xs = [] := by
  constructor
  · intro h
    rw [← words_trim, h]
    rfl
  · intro h
    have hall := (wordsFrom_eq_nil.mp h).2
    rw [trim, List.dropWhile_eq_nil_iff.mpr hall]
    rfl

end Bbkar.Words
