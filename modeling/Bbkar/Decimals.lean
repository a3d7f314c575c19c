import Mathlib

/-!
# Comparing decimal texts

Texts are compared character by character. Numbers written with the same number of digits
compare like their values. Without leading zeros the number of digits gets in the way: what
is compared is the shorter number and as many leading digits of the longer one.
-/
namespace Bbkar.Decimals

theorem ordering_ext {o p : Ordering} (hlt : o = .lt ↔ p = .lt) (hgt : o = .gt ↔ p = .gt) :
    o = p := by
  cases o <;> cases p <;> simp_all

section LinearOrder

variable {α β : Type*} [LinearOrder α] [LinearOrder β]

/-- Comparisons agree when both strict orders do. -/
theorem cmp_congr {a b : α} {c d : β} (hlt : a < b ↔ c < d) (hgt : b < a ↔ d < c) :
    cmp a b = cmp c d :=
  ordering_ext (by rw [cmp_eq_lt_iff, cmp_eq_lt_iff, hlt])
    (by rw [cmp_eq_gt_iff, cmp_eq_gt_iff, hgt])

/-- Texts are compared by their first difference, and a beginning comes first. -/
def lexCmp : List α → List α → Ordering
  | [], [] => .eq
  | [], _ :: _ => .lt
  | _ :: _, [] => .gt
  | a :: x, b :: y => (cmp a b).then (lexCmp x y)

theorem lexCmp_eq_eq {x y : List α} : lexCmp x y = .eq ↔ x = y := by
  induction x, y using lexCmp.induct with
  | case1 => simp [lexCmp]
  | case2 => simp [lexCmp]
  | case3 => simp [lexCmp]
  | case4 a x b y ih => rw [lexCmp, Ordering.then_eq_eq, cmp_eq_eq_iff, ih, List.cons.injEq]

theorem lexCmp_eq_lt {x y : List α} : lexCmp x y = .lt ↔ x < y := by
  induction x, y using lexCmp.induct with
  | case1 => simp [lexCmp]
  | case2 => simp [lexCmp]
  | case3 => simp [lexCmp]
  | case4 a x b y ih =>
    rw [lexCmp, Ordering.then_eq_lt, cmp_eq_lt_iff, cmp_eq_eq_iff, ih, List.cons_lt_cons_iff]

theorem lexCmp_eq_gt {x y : List α} : lexCmp x y = .gt ↔ y < x := by
  induction x, y using lexCmp.induct with
  | case1 => simp [lexCmp]
  | case2 => simp [lexCmp]
  | case3 => simp [lexCmp]
  | case4 a x b y ih =>
    rw [lexCmp, Ordering.then_eq_gt, cmp_eq_gt_iff, cmp_eq_eq_iff, ih, List.cons_lt_cons_iff,
      eq_comm]

/-- Beginnings of one length are compared first. -/
theorem lexCmp_append {x y : List α} (h : x.length = y.length) (u v : List α) :
    lexCmp (x ++ u) (y ++ v) = (lexCmp x y).then (lexCmp u v) := by
  induction x generalizing y with
  | nil =>
    obtain rfl := List.length_eq_zero_iff.mp h.symm
    rfl
  | cons a x ih =>
    cases y with
    | nil => simp at h
    | cons b y =>
      rw [List.cons_append, List.cons_append, lexCmp, lexCmp, ih (Nat.succ.inj h),
        Ordering.then_assoc]

@[simp] theorem lexCmp_singleton (a b : α) : lexCmp [a] [b] = cmp a b := by
  rw [lexCmp, lexCmp, Ordering.then_eq]

theorem lexCmp_nil_left (u : List α) : lexCmp [] u = if u = [] then .eq else .lt := by
  cases u <;> simp [lexCmp]

end LinearOrder

/-- Numbers are compared by their quotients first. -/
theorem cmp_mul_add {k r s : ℕ} (q p : ℕ) (hr : r < k) (hs : s < k) :
    cmp (q * k + r) (p * k + s) = (cmp q p).then (cmp r s) := by
  rcases lt_trichotomy q p with h | rfl | h
  · have hmul := Nat.mul_le_mul_right k (Nat.succ_le_of_lt h)
    rw [Nat.succ_mul] at hmul
    rw [h.cmp_eq_lt, (show q * k + r < p * k + s by omega).cmp_eq_lt]
    rfl
  · rw [cmp_self_eq_eq]
    exact cmp_congr (by omega) (by omega)
  · have hmul := Nat.mul_le_mul_right k (Nat.succ_le_of_lt h)
    rw [Nat.succ_mul] at hmul
    rw [h.cmp_eq_gt, (show p * k + s < q * k + r by omega).cmp_eq_gt]
    rfl

theorem cmp_digitChar {a b : ℕ} (ha : a < 10) (hb : b < 10) :
    cmp (Nat.digitChar a) (Nat.digitChar b) = cmp a b := by
  have hall : ∀ a < 10, ∀ b < 10, cmp (Nat.digitChar a) (Nat.digitChar b) = cmp a b := by
    decide
  exact hall a ha b hb

/-! ## A fixed number of digits -/

/-- The last digits of a number, as many as asked for. -/
def padDigits : ℕ → ℕ → List Char
  | 0, _ => []
  | width + 1, n => padDigits width (n / 10) ++ [Nat.digitChar (n % 10)]

@[simp] theorem padDigits_length (width n : ℕ) : (padDigits width n).length = width := by
  induction width generalizing n with
  | zero => rfl
  | succ width ih => simp [padDigits, ih]

/-- Padded digits compare like the numbers. -/
theorem lexCmp_padDigits {width a b : ℕ} (ha : a < 10 ^ width) (hb : b < 10 ^ width) :
    lexCmp (padDigits width a) (padDigits width b) = cmp a b := by
  induction width generalizing a b with
  | zero =>
    obtain rfl : a = 0 := by simpa using ha
    obtain rfl : b = 0 := by simpa using hb
    rfl
  | succ width ih =>
    rw [pow_succ] at ha hb
    have hmod : ∀ n, n % 10 < 10 := fun n => Nat.mod_lt n (by omega)
    have hlen : (padDigits width (a / 10)).length = (padDigits width (b / 10)).length := by
      simp
    calc
      _ = (cmp (a / 10) (b / 10)).then (cmp (a % 10) (b % 10)) := by
        rw [padDigits, padDigits, lexCmp_append hlen, ih (by omega) (by omega),
          lexCmp_singleton, cmp_digitChar (hmod a) (hmod b)]
      _ = cmp a b := by
        rw [← cmp_mul_add _ _ (hmod a) (hmod b), Nat.div_add_mod', Nat.div_add_mod']

/-- Leading and last digits. -/
theorem padDigits_add (width k n : ℕ) :
    padDigits (width + k) n = padDigits width (n / 10 ^ k) ++ padDigits k n := by
  induction k generalizing n with
  | zero => simp [padDigits]
  | succ k ih =>
    calc
      _ = padDigits (width + k) (n / 10) ++ [Nat.digitChar (n % 10)] := rfl
      _ = padDigits width (n / 10 ^ (k + 1)) ++
          (padDigits k (n / 10) ++ [Nat.digitChar (n % 10)]) := by
        rw [ih, Nat.div_div_eq_div_mul, ← pow_succ', List.append_assoc]
      _ = _ := rfl

/-! ## As many digits as needed -/

/-- The number of decimal digits. -/
def digitCount (n : ℕ) : ℕ := (Nat.toDigits 10 n).length

theorem digitCount_pos (n : ℕ) : 0 < digitCount n := Nat.length_toDigits_pos

theorem digitCount_le_iff {n k : ℕ} (h : 0 < k) : digitCount n ≤ k ↔ n < 10 ^ k :=
  Nat.length_toDigits_le_iff (by omega) h

theorem digitCount_mono {a b : ℕ} (h : a ≤ b) : digitCount a ≤ digitCount b :=
  (digitCount_le_iff (digitCount_pos b)).mpr
    (h.trans_lt ((digitCount_le_iff (digitCount_pos b)).mp le_rfl))

/-- Written without leading zeros a number has just its digits. -/
theorem toDigits_eq_padDigits (n : ℕ) : Nat.toDigits 10 n = padDigits (digitCount n) n := by
  induction n using Nat.strong_induction_on with
  | _ n ih =>
    by_cases hn : n < 10
    · rw [digitCount, Nat.toDigits_of_lt_base hn]
      simp [padDigits, Nat.mod_eq_of_lt hn]
    · have hdigits := Nat.toDigits_of_base_le (by omega : 1 < 10) (not_lt.mp hn)
      have hcount : digitCount n = digitCount (n / 10) + 1 := by
        rw [digitCount, hdigits, List.length_append]
        rfl
      rw [hdigits, hcount, padDigits, ← ih (n / 10) (by omega)]

/-- The shorter number is compared with as many leading digits of the longer one. -/
theorem lexCmp_toDigits_eq_lt {a b : ℕ} (h : a < b) :
    lexCmp (Nat.toDigits 10 a) (Nat.toDigits 10 b) = .lt ↔
      a * 10 ^ (digitCount b - digitCount a) ≤ b := by
  obtain ⟨k, hk⟩ := Nat.exists_eq_add_of_le (digitCount_mono h.le)
  have ha : a < 10 ^ digitCount a := (digitCount_le_iff (digitCount_pos a)).mp le_rfl
  have hb : b < 10 ^ digitCount b := (digitCount_le_iff (digitCount_pos b)).mp le_rfl
  have hlead : b / 10 ^ k < 10 ^ digitCount a := by
    rw [hk, pow_add] at hb
    exact Nat.div_lt_of_lt_mul (by rwa [Nat.mul_comm] at hb)
  have happ : lexCmp (Nat.toDigits 10 a) (Nat.toDigits 10 b) =
      (cmp a (b / 10 ^ k)).then (lexCmp [] (padDigits k b)) := by
    rw [toDigits_eq_padDigits a, toDigits_eq_padDigits b, hk, padDigits_add,
      ← lexCmp_padDigits ha hlead, ← lexCmp_append (by simp), List.append_nil]
  rw [happ, Ordering.then_eq_lt, cmp_eq_lt_iff, cmp_eq_eq_iff, lexCmp_nil_left, hk,
    Nat.add_sub_cancel_left, ← Nat.le_div_iff_mul_le (by positivity)]
  cases k with
  | zero =>
    simp [padDigits]
    omega
  | succ k =>
    have hne : padDigits (k + 1) b ≠ [] := by
      intro hnil
      simpa using congrArg List.length hnil
    rw [if_neg hne, le_iff_lt_or_eq]
    simp

end Bbkar.Decimals
