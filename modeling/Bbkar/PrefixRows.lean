import Mathlib.Computability.MyhillNerode

/-!
# Rows of a prefix table

A row has one cell for each prefix of a text and tells which prefixes belong to a language.
Appending one letter to a language shifts its row; appending any word makes the row grow
from left to right.
-/
namespace Bbkar

variable {α : Type}

/-- Cell `j` of the row is true exactly when the prefix of length `j` is in `L`. -/
inductive PrefixRow : Language α → List α → List Bool → Prop
  | nil {L : Language α} {b : Bool} (head : b = true ↔ [] ∈ L) : PrefixRow L [] [b]
  | cons {L : Language α} {t : α} {text : List α} {b : Bool} {row : List Bool}
      (head : b = true ↔ [] ∈ L) (tail : PrefixRow (L.leftQuotient [t]) text row) :
      PrefixRow L (t :: text) (b :: row)

/-- The last cell decides the whole text. -/
theorem prefixRow_getLast {L : Language α} {text : List α} {row : List Bool}
    (h : PrefixRow L text row) : row.getLast?.getD false = true ↔ text ∈ L := by
  induction h with
  | nil head => simpa using head
  | @cons L t text b row head tail ih =>
    have hne : row ≠ [] := by cases tail <;> simp
    rw [List.getLast?_cons_of_ne_nil hne, ih, Language.mem_leftQuotient, List.singleton_append]

theorem prefixRow_empty (text : List α) {L : Language α} (hL : ∀ w, w ∉ L) :
    PrefixRow L text (false :: text.map (fun _ => false)) := by
  induction text generalizing L with
  | nil => exact .nil (by simp [hL])
  | cons t text ih => exact .cons (by simp [hL]) (ih fun w => hL ([t] ++ w))

/-- The row of the language of the empty word alone. -/
theorem prefixRow_one (text : List α) :
    PrefixRow 1 text (true :: text.map (fun _ => false)) := by
  cases text with
  | nil => exact .nil (by simp)
  | cons t text => exact .cons (by simp) (prefixRow_empty text (by simp))

/-- The one-letter words whose letter passes a test. -/
def letters (accepts : α → Bool) : Language α :=
  fun w => ∃ c, accepts c = true ∧ w = [c]

theorem mem_letters {accepts : α → Bool} {w : List α} :
    w ∈ letters accepts ↔ ∃ c, accepts c = true ∧ w = [c] := Iff.rfl

theorem nil_notMem_mul_letters (L : Language α) (accepts : α → Bool) :
    [] ∉ L * letters accepts := by
  intro h
  obtain ⟨u, -, v, ⟨c, -, rfl⟩, huv⟩ := Language.mem_mul.mp h
  simp at huv

theorem snoc_mem_mul_letters {L : Language α} {accepts : α → Bool} {p : List α} {c : α} :
    p ++ [c] ∈ L * letters accepts ↔ p ∈ L ∧ accepts c = true := by
  constructor
  · intro h
    obtain ⟨u, hu, v, ⟨d, hd, rfl⟩, huv⟩ := Language.mem_mul.mp h
    obtain ⟨rfl, rfl⟩ : u = p ∧ d = c := by simpa using List.append_inj' huv rfl
    exact ⟨hu, hd⟩
  · rintro ⟨hp, hc⟩
    exact Language.append_mem_mul hp ⟨c, hc, rfl⟩

theorem nil_mem_mul_top {L : Language α} : [] ∈ L * ⊤ ↔ [] ∈ L := by
  constructor
  · intro h
    obtain ⟨u, hu, v, -, huv⟩ := Language.mem_mul.mp h
    rwa [(List.append_eq_nil_iff.mp huv).1] at hu
  · exact fun h => Language.mem_mul.mpr ⟨[], h, [], trivial, rfl⟩

/-- A prefix in `L * ⊤` either was there one letter earlier or is itself in `L`. -/
theorem snoc_mem_mul_top {L : Language α} {p : List α} {c : α} :
    p ++ [c] ∈ L * ⊤ ↔ p ∈ L * ⊤ ∨ p ++ [c] ∈ L := by
  constructor
  · intro h
    obtain ⟨u, hu, v, -, huv⟩ := Language.mem_mul.mp h
    rcases List.eq_nil_or_concat v with rfl | ⟨w, d, rfl⟩
    · exact Or.inr (by rwa [← huv, List.append_nil])
    · have hw : u ++ w = p := by
        rw [List.concat_eq_append, ← List.append_assoc] at huv
        exact (List.append_inj' huv rfl).1
      exact Or.inl (Language.mem_mul.mpr ⟨u, hu, w, trivial, hw⟩)
  · rintro (h | h)
    · obtain ⟨u, hu, v, -, rfl⟩ := Language.mem_mul.mp h
      exact Language.mem_mul.mpr ⟨u, hu, v ++ [c], trivial, (List.append_assoc ..).symm⟩
    · exact Language.mem_mul.mpr ⟨p ++ [c], h, [], trivial, List.append_nil _⟩

/-- A word is in a product of languages when it can be cut into one piece for each. -/
theorem mem_prod_iff_pieces {β : Type} (language : β → Language α) (bs : List β)
    (w : List α) :
    w ∈ (bs.map language).prod ↔
      ∃ pieces, List.Forall₂ (fun b piece => piece ∈ language b) bs pieces ∧
        pieces.flatten = w := by
  induction bs generalizing w with
  | nil => simp [eq_comm]
  | cons b bs ih =>
    rw [List.map_cons, List.prod_cons, Language.mem_mul]
    constructor
    · rintro ⟨piece, hpiece, rest, hrest, rfl⟩
      obtain ⟨pieces, hpieces, rfl⟩ := (ih rest).mp hrest
      exact ⟨piece :: pieces, .cons hpiece hpieces, rfl⟩
    · rintro ⟨_, hall, rfl⟩
      cases hall with
      | cons hpiece hpieces =>
        exact ⟨_, hpiece, _, (ih _).mpr ⟨_, hpieces, rfl⟩, rfl⟩

end Bbkar
