import Bbkar.Planner
import Mathlib.Tactic.Ring

/-!
# Digits and bytes

The order of digit strings of one length is the order of their values. A slice at a byte
position exists when some characters take up exactly that many bytes.
-/
namespace Bbkar

/-! ## Digits -/

def AllDigits (cs : List Char) : Prop := cs.all Char.isDigit = true

theorem AllDigits.append_iff {a b : List Char} :
    AllDigits (a ++ b) ↔ AllDigits a ∧ AllDigits b := by
  simp [AllDigits, List.all_append]

theorem AllDigits.cons_iff {c : Char} {cs : List Char} :
    AllDigits (c :: cs) ↔ (48 ≤ c.toNat ∧ c.toNat ≤ 57) ∧ AllDigits cs := by
  simp only [AllDigits, List.all_cons, Bool.and_eq_true]
  rw [Char.isDigit_iff_toNat]
  rfl

theorem digitsValue_append (a b : List Char) :
    digitsValue (a ++ b) = digitsValue a * 10 ^ b.length + digitsValue b := by
  induction b using List.reverseRecOn with
  | nil => simp [digitsValue]
  | append_singleton b c ih =>
    have hsnoc : ∀ xs, digitsValue (xs ++ [c]) = 10 * digitsValue xs + (c.toNat - 48) := by
      intro xs
      simp [digitsValue, List.foldl_append]
    rw [← List.append_assoc, hsnoc, hsnoc, ih, List.length_append, List.length_singleton, pow_succ]
    ring

theorem digitsValue_cons (c : Char) (cs : List Char) :
    digitsValue (c :: cs) = (c.toNat - 48) * 10 ^ cs.length + digitsValue cs := by
  have hone : digitsValue [c] = c.toNat - 48 := by simp [digitsValue]
  rw [← hone]
  exact digitsValue_append [c] cs

theorem digitsValue_lt {cs : List Char} (h : AllDigits cs) : digitsValue cs < 10 ^ cs.length := by
  induction cs with
  | nil => simp [digitsValue]
  | cons c cs ih =>
    obtain ⟨hc, hcs⟩ := AllDigits.cons_iff.mp h
    have hlt := ih hcs
    have hdigit : c.toNat - 48 ≤ 9 := by omega
    have hmul := Nat.mul_le_mul_right (10 ^ cs.length) hdigit
    rw [digitsValue_cons, List.length_cons, pow_succ]
    omega

/-- Digits of equal length are ordered like their values, whatever follows them. -/
theorem digitsValue_le {a b x y : List Char} (ha : AllDigits a) (hb : AllDigits b)
    (hlen : a.length = b.length) (h : ¬ b ++ y < a ++ x) : digitsValue a ≤ digitsValue b := by
  induction a generalizing b with
  | nil =>
    obtain rfl := List.length_eq_zero_iff.mp hlen.symm
    exact le_rfl
  | cons c a ih =>
    cases b with
    | nil => simp at hlen
    | cons d b =>
      obtain ⟨hc, ha⟩ := AllDigits.cons_iff.mp ha
      obtain ⟨hd, hb⟩ := AllDigits.cons_iff.mp hb
      have hlen : a.length = b.length := Nat.succ.inj hlen
      rw [List.cons_append, List.cons_append, List.cons_lt_cons_iff, not_or, not_and] at h
      rw [digitsValue_cons, digitsValue_cons, ← hlen]
      rcases lt_or_eq_of_le (not_lt.mp h.1) with hlt | hcd
      · have hlt' : c.toNat < d.toNat := hlt
        have hva := digitsValue_lt ha
        have hstep : c.toNat - 48 + 1 ≤ d.toNat - 48 := by omega
        have hmul := Nat.mul_le_mul_right (10 ^ a.length) hstep
        rw [Nat.succ_mul] at hmul
        omega
      · have hle := ih ha hb hlen (h.2 hcd.symm)
        rw [hcd]
        exact Nat.add_le_add_left hle _

/-! ## Byte positions -/

@[simp] theorem utf8Len_nil : utf8Len [] = 0 := rfl

@[simp] theorem utf8Len_cons (c : Char) (cs : List Char) :
    utf8Len (c :: cs) = c.utf8Size + utf8Len cs := rfl

@[simp] theorem utf8Len_append (a b : List Char) :
    utf8Len (a ++ b) = utf8Len a + utf8Len b := by
  simp [utf8Len, List.map_append, List.sum_append]

theorem utf8Len_eq_zero {cs : List Char} : utf8Len cs = 0 ↔ cs = [] := by
  cases cs with
  | nil => simp
  | cons c cs => simp [Nat.ne_of_gt (Char.utf8Size_pos c)]

/-- A slice is a prefix of that many bytes and the rest. -/
theorem splitAtByte_eq_some {n : ℕ} {cs a b : List Char} :
    splitAtByte n cs = some (a, b) ↔ cs = a ++ b ∧ utf8Len a = n := by
  induction n, cs using splitAtByte.induct generalizing a with
  | case1 cs =>
    simp only [splitAtByte, Option.some.injEq, Prod.mk.injEq, utf8Len_eq_zero]
    constructor
    · rintro ⟨rfl, rfl⟩
      exact ⟨rfl, rfl⟩
    · rintro ⟨rfl, rfl⟩
      exact ⟨rfl, rfl⟩
  | case2 n =>
    simp only [splitAtByte, reduceCtorEq, false_iff, not_and]
    intro h
    obtain ⟨rfl, -⟩ := List.append_eq_nil_iff.mp h.symm
    simp
  | case3 n c cs hle ih =>
    rw [splitAtByte, if_pos hle, Option.map_eq_some_iff]
    cases a with
    | nil => simp
    | cons d a =>
      constructor
      · rintro ⟨⟨x, y⟩, hxy, h⟩
        simp only [Prod.mk.injEq, List.cons.injEq] at h
        obtain ⟨⟨rfl, rfl⟩, rfl⟩ := h
        obtain ⟨rfl, hlen⟩ := ih.mp hxy
        exact ⟨rfl, by rw [utf8Len_cons, hlen]; omega⟩
      · rintro ⟨h, hlen⟩
        obtain ⟨rfl, rfl⟩ := List.cons.inj h
        rw [utf8Len_cons] at hlen
        exact ⟨(a, b), ih.mpr ⟨rfl, by omega⟩, rfl⟩
  | case4 n c cs hgt =>
    rw [splitAtByte, if_neg hgt]
    simp only [reduceCtorEq, false_iff, not_and]
    rintro h hlen
    cases a with
    | nil => simp at hlen
    | cons d a =>
      obtain ⟨rfl, rfl⟩ := List.cons.inj h
      rw [utf8Len_cons] at hlen
      omega

/-- Digits take one byte each. -/
theorem utf8Len_digits {cs : List Char} (h : AllDigits cs) : utf8Len cs = cs.length := by
  induction cs with
  | nil => rfl
  | cons c cs ih =>
    obtain ⟨hc, hcs⟩ := AllDigits.cons_iff.mp h
    have hsize : c.utf8Size = 1 := by
      rw [Char.utf8Size_eq_one_iff, UInt32.le_iff_toNat_le]
      exact hc.2.trans (by decide)
    rw [utf8Len_cons, hsize, ih hcs, List.length_cons, add_comm]

/-- A slice after digits cuts where their number says. -/
theorem splitAtByte_digits {cs : List Char} (h : AllDigits cs) (rest : List Char) :
    splitAtByte cs.length (cs ++ rest) = some (cs, rest) :=
  splitAtByte_eq_some.mpr ⟨rfl, utf8Len_digits h⟩

end Bbkar
