import Mathlib.Data.Prod.Lex
import Mathlib.Logic.Function.Iterate
import Mathlib.Tactic.IntervalCases

/-!
# The Gregorian calendar

Dates follow each other day by day. The number of a date counts the days, so the distance
of two dates is the number of steps between them. Counting years as 365 and months as 30
days differs from it by a few days and the leap days in between.
-/
namespace Bbkar.Calendar
open Function

def isLeap (year : ℕ) : Bool := year % 4 == 0 && (year % 100 != 0 || year % 400 == 0)

def daysInMonth (year : ℕ) : ℕ → ℕ
  | 1 => 31
  | 2 => if isLeap year then 29 else 28
  | 3 => 31
  | 4 => 30
  | 5 => 31
  | 6 => 30
  | 7 => 31
  | 8 => 31
  | 9 => 30
  | 10 => 31
  | 11 => 30
  | 12 => 31
  | _ => 0

structure Date where
  year : ℕ
  month : ℕ
  day : ℕ
  month_pos : 1 ≤ month
  month_le : month ≤ 12
  day_pos : 1 ≤ day
  day_le : day ≤ daysInMonth year month
  deriving DecidableEq

theorem daysInMonth_pos (year : ℕ) {month : ℕ} (h : 1 ≤ month) (h' : month ≤ 12) :
    1 ≤ daysInMonth year month := by
  by_cases hleap : isLeap year = true <;> interval_cases month <;> simp [daysInMonth, hleap]

theorem daysInMonth_le (year month : ℕ) : daysInMonth year month ≤ 31 := by
  by_cases hleap : isLeap year = true <;> unfold daysInMonth <;> split <;> simp [hleap]

namespace Date

theorem day_le_31 (d : Date) : d.day ≤ 31 := d.day_le.trans (daysInMonth_le _ _)

def ofFields (year month day : ℕ) : Option Date :=
  if h : (1 ≤ month ∧ month ≤ 12) ∧ 1 ≤ day ∧ day ≤ daysInMonth year month then
    some ⟨year, month, day, h.1.1, h.1.2, h.2.1, h.2.2⟩
  else none

theorem ofFields_some {year month day : ℕ} {d : Date} (h : ofFields year month day = some d) :
    d.year = year ∧ d.month = month ∧ d.day = day := by
  unfold ofFields at h
  split_ifs at h
  obtain rfl := Option.some.inj h
  exact ⟨rfl, rfl, rfl⟩

/-- The day after. -/
def next (d : Date) : Date :=
  if hday : d.day + 1 ≤ daysInMonth d.year d.month then
    ⟨d.year, d.month, d.day + 1, d.month_pos, d.month_le, by omega, hday⟩
  else if hmonth : d.month + 1 ≤ 12 then
    ⟨d.year, d.month + 1, 1, by omega, hmonth, le_rfl, daysInMonth_pos _ (by omega) hmonth⟩
  else ⟨d.year + 1, 1, 1, le_rfl, by omega, le_rfl, daysInMonth_pos _ le_rfl (by omega)⟩

def sortKey (d : Date) : ℕ ×ₗ ℕ ×ₗ ℕ := toLex (d.year, toLex (d.month, d.day))

theorem sortKey_injective : Injective sortKey := by
  rintro ⟨y, m, d, _, _, _, _⟩ ⟨y', m', d', _, _, _, _⟩ h
  obtain rfl : y = y' := congrArg (fun k => (ofLex k).1) h
  obtain rfl : m = m' := congrArg (fun k => (ofLex (ofLex k).2).1) h
  obtain rfl : d = d' := congrArg (fun k => (ofLex (ofLex k).2).2) h
  rfl

instance : LinearOrder Date := LinearOrder.lift' sortKey sortKey_injective

theorem lt_iff {d e : Date} : d < e ↔
    d.year < e.year ∨ (d.year = e.year ∧
      (d.month < e.month ∨ (d.month = e.month ∧ d.day < e.day))) := by
  change d.sortKey < e.sortKey ↔ _
  simp [sortKey, Prod.Lex.toLex_lt_toLex]

end Date

/-! ## Day numbers -/

/-- The days of the year before a month. -/
def daysBeforeMonth (year : ℕ) : ℕ → ℕ
  | 0 => 0
  | month + 1 => daysBeforeMonth year month + daysInMonth year month

/-- The days before a year. -/
def daysBeforeYear : ℕ → ℕ
  | 0 => 0
  | year + 1 => daysBeforeYear year + daysBeforeMonth year 13

def Date.dayNumber (d : Date) : ℕ :=
  daysBeforeYear d.year + daysBeforeMonth d.year d.month + d.day

theorem Date.dayNumber_next (d : Date) : d.next.dayNumber = d.dayNumber + 1 := by
  obtain ⟨year, month, day, hm, hm', hd, hd'⟩ := d
  unfold next
  split_ifs with hday hmonth
  · simp only [dayNumber]
    omega
  · simp only [dayNumber, daysBeforeMonth]
    simp only at hday
    omega
  · obtain rfl : month = 12 := by
      simp only at hmonth
      omega
    simp only at hday
    have hlast : daysBeforeMonth year 13 = daysBeforeMonth year 12 + daysInMonth year 12 := rfl
    have hfirst : daysBeforeMonth (year + 1) 1 = 0 := rfl
    simp only [dayNumber, daysBeforeYear]
    omega

theorem Date.dayNumber_iterate (d : Date) (n : ℕ) : (next^[n] d).dayNumber = d.dayNumber + n := by
  induction n with
  | zero => rfl
  | succ n ih =>
    rw [iterate_succ_apply', dayNumber_next, ih]
    omega

theorem daysBeforeMonth_mono (year : ℕ) : Monotone (daysBeforeMonth year) :=
  monotone_nat_of_le_succ fun _ => Nat.le_add_right _ _

theorem daysBeforeYear_mono : Monotone daysBeforeYear :=
  monotone_nat_of_le_succ fun _ => Nat.le_add_right _ _

theorem Date.dayNumber_lt {d e : Date} (h : d < e) : d.dayNumber < e.dayNumber := by
  obtain ⟨y, m, day, hm, hm', hd, hd'⟩ := d
  obtain ⟨y', m', day', hem, hem', hed, hed'⟩ := e
  have hmonth : daysBeforeMonth y (m + 1) = daysBeforeMonth y m + daysInMonth y m := rfl
  rw [lt_iff] at h
  simp only at h
  simp only [dayNumber]
  rcases h with hy | ⟨rfl, hlt | ⟨rfl, hlt⟩⟩
  · have hyear : daysBeforeYear (y + 1) = daysBeforeYear y + daysBeforeMonth y 13 := rfl
    have hys := daysBeforeYear_mono (show y + 1 ≤ y' by omega)
    have hms := daysBeforeMonth_mono y (show m + 1 ≤ 13 by omega)
    omega
  · have hms := daysBeforeMonth_mono y (show m + 1 ≤ m' by omega)
    omega
  · omega

theorem Date.dayNumber_strictMono : StrictMono dayNumber := fun _ _ => dayNumber_lt

/-- From a date one gets to every later one, in as many steps as their numbers differ. -/
theorem Date.exists_iterate {d e : Date} (h : d ≤ e) :
    ∃ n, next^[n] d = e ∧ e.dayNumber = d.dayNumber + n := by
  have hle := dayNumber_strictMono.monotone h
  refine ⟨e.dayNumber - d.dayNumber, dayNumber_strictMono.injective ?_, by omega⟩
  rw [dayNumber_iterate]
  omega

/-! ## The approximate count -/

/-- Years of 365 and months of 30 days. -/
def Date.approxDays (d : Date) : ℕ := d.year * 365 + d.month * 30 + d.day

/-- The leap years before a year. -/
def leapYearsBefore : ℕ → ℕ
  | 0 => 0
  | year + 1 => leapYearsBefore year + if isLeap year then 1 else 0

/-- The leap days before a date. -/
def Date.leapDays (d : Date) : ℕ :=
  leapYearsBefore d.year + if isLeap d.year ∧ 2 < d.month then 1 else 0

theorem daysBeforeYear_eq (year : ℕ) : daysBeforeYear year = year * 365 + leapYearsBefore year := by
  induction year with
  | zero => rfl
  | succ year ih =>
    have hyear : daysBeforeMonth year 13 = 365 + if isLeap year then 1 else 0 := by
      simp only [daysBeforeMonth, daysInMonth]
      split_ifs <;> rfl
    simp only [daysBeforeYear, leapYearsBefore, ih, hyear]
    omega

/-- Without its leap day the part of the year before a month is 26 to 31 days short of 30
days for each month. -/
theorem daysBeforeMonth_bounds (year : ℕ) {month : ℕ} (h : 1 ≤ month) (h' : month ≤ 12) :
    month * 30 ≤ daysBeforeMonth year month - (if isLeap year ∧ 2 < month then 1 else 0) + 31 ∧
      daysBeforeMonth year month + 26 ≤
        month * 30 + if isLeap year ∧ 2 < month then 1 else 0 := by
  by_cases hleap : isLeap year = true <;> interval_cases month <;>
    simp [daysBeforeMonth, daysInMonth, hleap]

/-- The distance exceeds the approximate one by at most five days and the leap days. -/
theorem Date.dayNumber_le_approxDays (d e : Date) :
    e.dayNumber + d.approxDays + d.leapDays ≤
      d.dayNumber + e.approxDays + e.leapDays + 5 := by
  have hd := daysBeforeMonth_bounds d.year d.month_pos d.month_le
  have he := daysBeforeMonth_bounds e.year e.month_pos e.month_le
  simp only [dayNumber, approxDays, leapDays, daysBeforeYear_eq]
  split_ifs at hd he ⊢ <;> omega

theorem Date.approxDays_mono {d e : Date} (h : d ≤ e) : d.approxDays ≤ e.approxDays := by
  have hle := h.eq_or_lt
  rw [Date.lt_iff] at hle
  have hdays := And.intro d.day_le_31 e.day_pos
  have hmonths := And.intro d.month_le e.month_pos
  unfold Date.approxDays
  rcases hle with rfl | hlt
  · exact le_rfl
  · omega

end Bbkar.Calendar
