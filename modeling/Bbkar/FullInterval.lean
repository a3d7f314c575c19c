import Bbkar.PlanLoop
import Bbkar.Calendar
import Bbkar.Digits

/-!
# How far apart full sends are

The planner compares dates by an approximate count of days. A snapshot is sent on a parent
only when the last full send is less than the interval away by that count, and the true
distance is then at most a few days and the leap days longer. A last full send that is
newer than the snapshot says nothing, since its distance is negative.
-/
namespace Bbkar
open Calendar Function

theorem parseI64_digits {cs : List Char} (h : AllDigits cs) (hne : cs ≠ [])
    (hlen : cs.length ≤ 4) : parseI64 cs = some (digitsValue cs : ℤ) := by
  have hlt : digitsValue cs < 2 ^ 63 := by
    have hpow : 10 ^ cs.length ≤ 10 ^ 4 := Nat.pow_le_pow_right (by omega) hlen
    have := digitsValue_lt h
    omega
  have hdigits : parseDigits cs = some (digitsValue cs) := by
    rw [parseDigits, if_pos ⟨hne, h⟩]
  unfold parseI64
  split
  · exact absurd (AllDigits.cons_iff.mp h).1 (by decide)
  · exact absurd (AllDigits.cons_iff.mp h).1 (by decide)
  · rw [hdigits, Option.bind_some, if_pos hlt]

/-! ## Dates of timestamps -/

/-- The date that the first eight characters spell, if they are digits and it exists. -/
def Timestamp.date (t : Timestamp) : Option Date :=
  let cs := t.timestamp.toList
  if 8 ≤ cs.length ∧ (cs.take 8).all Char.isDigit = true then
    Date.ofFields (digitsValue (cs.take 4)) (digitsValue ((cs.drop 4).take 2))
      (digitsValue ((cs.drop 6).take 2))
  else none

/-- The digits of a date, in front of whatever else the timestamp has. -/
structure Spells (cs : List Char) (d : Date) (ys ms ds rest : List Char) : Prop where
  eq : cs = (ys ++ (ms ++ ds)) ++ rest
  digits : AllDigits ys ∧ AllDigits ms ∧ AllDigits ds
  length : ys.length = 4 ∧ ms.length = 2 ∧ ds.length = 2
  value : d.year = digitsValue ys ∧ d.month = digitsValue ms ∧ d.day = digitsValue ds

theorem Timestamp.date_spells {t : Timestamp} {d : Date} (h : t.date = some d) :
    ∃ ys ms ds rest, Spells t.timestamp.toList d ys ms ds rest := by
  simp only [date] at h
  split_ifs at h with hcs
  obtain ⟨hlen, hall⟩ := hcs
  generalize t.timestamp.toList = cs at h hlen hall ⊢
  obtain ⟨hy, hm, hd⟩ := Date.ofFields_some h
  have htake : cs.take 8 = cs.take 4 ++ ((cs.drop 4).take 2 ++ (cs.drop 6).take 2) := by
    rw [show (8 : ℕ) = 4 + (2 + 2) from rfl, List.take_add, List.take_add, List.drop_drop]
  refine ⟨cs.take 4, (cs.drop 4).take 2, (cs.drop 6).take 2, cs.drop 8, ?_, ?_, ?_, hy, hm, hd⟩
  · rw [← htake, List.take_append_drop]
  · have hdigits : AllDigits (cs.take 8) := hall
    rw [htake, AllDigits.append_iff, AllDigits.append_iff] at hdigits
    exact hdigits
  · simp only [List.length_take, List.length_drop]
    omega

/-- On a date the code computes the approximate count. -/
theorem parseDateToDays_date {t : Timestamp} {d : Date} (h : t.date = some d) :
    parseDateToDays t.timestamp = .ok (some (d.approxDays : ℤ)) := by
  obtain ⟨ys, ms, ds, rest, heq, ⟨hy, hm, hd⟩, ⟨hylen, hmlen, hdlen⟩, hvy, hvm, hvd⟩ :=
    t.date_spells h
  have hmd := AllDigits.append_iff.mpr ⟨hm, hd⟩
  have hall := AllDigits.append_iff.mpr ⟨hy, hmd⟩
  have hlong : ¬ utf8Len t.timestamp.toList < 8 := by
    rw [heq, utf8Len_append, utf8Len_digits hall]
    simp only [List.length_append]
    omega
  have hdate : splitAtByte 8 t.timestamp.toList = some (ys ++ (ms ++ ds), rest) := by
    have := splitAtByte_digits hall rest
    rwa [List.length_append, List.length_append, hylen, hmlen, hdlen, ← heq] at this
  have hyear : splitAtByte 4 (ys ++ (ms ++ ds)) = some (ys, ms ++ ds) :=
    hylen ▸ splitAtByte_digits hy _
  have hmonth : splitAtByte 2 (ms ++ ds) = some (ms, ds) := hmlen ▸ splitAtByte_digits hm _
  have hpy := parseI64_digits hy (by rintro rfl; simp at hylen) (by omega)
  have hpm := parseI64_digits hm (by rintro rfl; simp at hmlen) (by omega)
  have hpd := parseI64_digits hd (by rintro rfl; simp at hdlen) (by omega)
  unfold parseDateToDays
  rw [if_neg hlong]
  simp [hdate, hyear, hmonth, hpy, hpm, hpd, orPanic, Date.approxDays, hvy, hvm, hvd, bind,
    Except.bind, pure, Except.pure]

/-- A timestamp with a date starts with the eight digits of that date, and so does the
suffix it was parsed from. -/
theorem Timestamp.Parsed.raw_spells {t : Timestamp} {d : Date} (ht : t.Parsed)
    (h : t.date = some d) : ∃ ys ms ds rest, Spells t.raw.toList d ys ms ds rest := by
  obtain ⟨ys, ms, ds, rest, heq, hdigits, hlen, hvalue⟩ := t.date_spells h
  obtain ⟨suffix, hsuffix⟩ := parse_timestamp_prefix ht
  refine ⟨ys, ms, ds, rest ++ suffix, ?_, hdigits, hlen, hvalue⟩
  rw [← hsuffix, heq, List.append_assoc]

theorem Spells.digitsValue_eq {cs ys ms ds rest : List Char} {d : Date}
    (h : Spells cs d ys ms ds rest) :
    digitsValue (ys ++ (ms ++ ds)) = d.year * 10000 + (d.month * 100 + d.day) := by
  obtain ⟨hylen, hmlen, hdlen⟩ := h.length
  obtain ⟨hy, hm, hd⟩ := h.value
  rw [digitsValue_append, digitsValue_append, List.length_append, hmlen, hdlen, hy, hm, hd]
  norm_num

theorem Spells.digits_length {cs ys ms ds rest : List Char} {d : Date}
    (h : Spells cs d ys ms ds rest) : (ys ++ (ms ++ ds)).length = 8 := by
  obtain ⟨hylen, hmlen, hdlen⟩ := h.length
  rw [List.length_append, List.length_append, hylen, hmlen, hdlen]

theorem Spells.allDigits {cs ys ms ds rest : List Char} {d : Date}
    (h : Spells cs d ys ms ds rest) : AllDigits (ys ++ (ms ++ ds)) := by
  obtain ⟨hy, hm, hd⟩ := h.digits
  exact AllDigits.append_iff.mpr ⟨hy, AllDigits.append_iff.mpr ⟨hm, hd⟩⟩

/-- Later timestamps do not have earlier dates. -/
theorem Timestamp.date_mono {t u : Timestamp} {d e : Date} (ht : t.Parsed) (hu : u.Parsed)
    (h : t ≤ u) (hd : t.date = some d) (he : u.date = some e) : d ≤ e := by
  obtain ⟨_, _, _, _, hts⟩ := ht.raw_spells hd
  obtain ⟨_, _, _, _, hus⟩ := hu.raw_spells he
  have hraw : ¬ u.raw.toList < t.raw.toList := by
    rw [← String.lt_iff_toList_lt]
    exact not_lt.mpr (raw_le_of_le h)
  rw [hts.eq, hus.eq] at hraw
  have hvalue := digitsValue_le hts.allDigits hus.allDigits
    (hts.digits_length.trans hus.digits_length.symm) hraw
  rw [hts.digitsValue_eq, hus.digitsValue_eq] at hvalue
  by_contra hlt
  rw [not_le, Date.lt_iff] at hlt
  -- months and days have at most two digits, so the larger field decides
  have hmonths := And.intro d.month_le e.month_le
  have hdays := And.intro d.day_le_31 e.day_le_31
  omega

/-! ## The last full send of a planned step -/

namespace Planned

variable {policy : SendPolicy} {src : SourceState} {st st' : PlanState}
  {snaps : List Timestamp}

/-- Once a full send is planned the last full send is a planned one. -/
theorem lastFull_planned {steps : List RunStep} (h : Planned policy src st snaps steps st')
    {f : Timestamp} (hf : .sendFull f ∈ steps) :
    ∃ g ∈ snaps, .sendFull g ∈ steps ∧ st'.lastFull = some g := by
  induction h with
  | nil => simp at hf
  | skip _ _ ih =>
    obtain ⟨g, hg, hplanned, hlast⟩ := ih hf
    exact ⟨g, List.mem_cons_of_mem _ hg, hplanned, hlast⟩
  | @full st snap _ _ _ _ _ hp _ =>
    rcases hp.lastFull_cases with hlast | ⟨g, hg, _, hplanned, hlast⟩
    · exact ⟨snap, by simp, by simp, hlast⟩
    · exact ⟨g, List.mem_cons_of_mem _ hg, List.mem_cons_of_mem _ hplanned, hlast⟩
  | incremental _ _ _ ih =>
    obtain ⟨g, hg, hplanned, hlast⟩ := ih (by simpa using hf)
    exact ⟨g, List.mem_cons_of_mem _ hg, List.mem_cons_of_mem _ hplanned, hlast⟩

end Planned

/-- An interval check that does not ask for a full send bounds the approximate distance. -/
theorem approxDays_lt_of_checkInterval {f s : Timestamp} {d e : Date}
    {interval : CalendarDuration} (hd : f.date = some d) (he : s.date = some e)
    (h : checkIntervalExceeded (some f) s interval = .ok false) :
    e.approxDays < d.approxDays + interval.days := by
  simp only [checkIntervalExceeded, parseDateToDays_date hd, parseDateToDays_date he, bind,
    Except.bind, pure, Except.pure, Except.ok.injEq, decide_eq_false_iff_not] at h
  omega

/-! ## Distances -/

/-- A full archive that is on the destination or planned before. -/
def FullBefore (dest : DestState) (before : List RunStep) (f : Timestamp) : Prop :=
  (∃ a ∈ dest.archives, a.isIncremental = false ∧ a.timestamp = f) ∨ .sendFull f ∈ before

/-- Nothing newer than `s` counts as its last full send: either a full send is planned
before it or no full archive on the destination has a later date. -/
def NoNewerFull (dest : DestState) (before : List RunStep) (s : Timestamp) : Prop :=
  (∃ f, .sendFull f ∈ before) ∨
    ∀ a ∈ dest.archives, a.isIncremental = false →
      ∀ d e, a.timestamp.date = some d → s.date = some e → d ≤ e

/-- The date of `s` comes `n` days after the date of `f`. -/
def DaysAfter (f s : Timestamp) (n : ℕ) : Prop :=
  ∃ d e, f.date = some d ∧ s.date = some e ∧ Date.next^[n] d = e

theorem daysAfter_iff {f s : Timestamp} {n : ℕ} :
    DaysAfter f s n ↔ s.date ≠ none ∧ f.date.map Date.next^[n] = s.date := by
  unfold DaysAfter
  cases f.date <;> cases s.date <;> simp [eq_comm]

instance (f s : Timestamp) (n : ℕ) : Decidable (DaysAfter f s n) :=
  decidable_of_iff _ daysAfter_iff.symm

/-- When a snapshot is decided, the last full send is a full archive with a date, and with
nothing newer around it is not after the snapshot. -/
theorem lastFull_date {src : SourceState} (hsrc : src.Parsed)
    (hdates : ∀ s ∈ src.snapshots, ∃ e, s.date = some e) {dest : DestState}
    (hdest : ∀ a ∈ dest.archives, a.isIncremental = false → ∃ d, a.timestamp.date = some d)
    {policy : SendPolicy} {st stk : PlanState} (hi : initialPlanState dest.archives = .ok st)
    {pre rest : List Timestamp} {s : Timestamp} (hsnaps : src.snapshots = pre ++ s :: rest)
    {before : List RunStep} (hpre : Planned policy src st pre before stk) {f : Timestamp}
    (hlast : stk.lastFull = some f) :
    FullBefore dest before f ∧ ∃ d, f.date = some d ∧
      (NoNewerFull dest before s → ∀ e, s.date = some e → d ≤ e) := by
  have hs : s ∈ src.snapshots := by simp [hsnaps]
  have hplanned : ∀ g ∈ pre, .sendFull g ∈ before → stk.lastFull = some g →
      FullBefore dest before f ∧ ∃ d, f.date = some d ∧ ∀ e, s.date = some e → d ≤ e := by
    intro g hg hfull hlastg
    obtain rfl : g = f := Option.some.inj (hlastg.symm.trans hlast)
    have hgs : g ∈ src.snapshots := by simp [hsnaps, hg]
    have hsorted : (pre ++ s :: rest).Pairwise (· ≤ ·) := hsnaps ▸ src.volume.sorted
    have hgle : g ≤ s := (List.pairwise_append.mp hsorted).2.2 g hg s (by simp)
    obtain ⟨d, hd⟩ := hdates g hgs
    exact ⟨Or.inr hfull, d, hd, fun e he =>
      Timestamp.date_mono (hsrc g hgs) (hsrc s hs) hgle hd he⟩
  rcases hpre.lastFull_cases with hsame | ⟨g, hg, _, hfull, hlastg⟩
  · rw [(initialPlanState_ok hi).2.2.1, hlast] at hsame
    obtain ⟨a, ha, hfull, rfl⟩ := lastFullOf_some hsame.symm
    obtain ⟨d, hd⟩ := hdest a ha hfull
    refine ⟨Or.inl ⟨a, ha, hfull, rfl⟩, d, hd, ?_⟩
    rintro (⟨f, hf⟩ | hnewer) e he
    · obtain ⟨g, hg, hfullg, hlastg⟩ := hpre.lastFull_planned hf
      obtain ⟨_, d', hd', hle⟩ := hplanned g hg hfullg hlastg
      obtain rfl : d = d' := Option.some.inj (hd.symm.trans hd')
      exact hle e he
    · exact hnewer a ha hfull d e hd he
  · obtain ⟨hbefore, d, hd, hle⟩ := hplanned g hg hfull hlastg
    exact ⟨hbefore, d, hd, fun _ => hle⟩

/-- By the approximate count an incremental send is less than the interval away from a full
one. Unless that one is newer, the true distance is at most four days and the leap days in
between longer than the interval allows. -/
theorem incremental_within_interval {src : SourceState} (hsrc : src.Parsed)
    (hdates : ∀ s ∈ src.snapshots, ∃ e, s.date = some e) {dest : DestState}
    (hdest : ∀ a ∈ dest.archives, a.isIncremental = false → ∃ d, a.timestamp.date = some d)
    {policy : SendPolicy} {plan : RunPlan} (h : buildPlan src dest policy = .ok plan)
    {before after : List RunStep} {s p : Timestamp}
    (hplan : plan.steps = before ++ .sendIncremental s p :: after) :
    ∃ f d e, FullBefore dest before f ∧ f.date = some d ∧ s.date = some e ∧
      e.approxDays < d.approxDays + policy.minFullSendInterval.days ∧
      (NoNewerFull dest before s → ∃ n, Date.next^[n] d = e ∧
        n + d.leapDays < policy.minFullSendInterval.days + 5 + e.leapDays) := by
  obtain ⟨st, st', hi, hp⟩ := buildPlan_planned h
  rw [hplan] at hp
  obtain ⟨pre, rest, stk, hsnaps, hpre, hdecided⟩ := hp.at_step
  have hwhy : AllowsIncremental policy src stk s p := hdecided
  obtain ⟨e, he⟩ := hdates s (by simp [hsnaps])
  cases hlast : stk.lastFull with
  | none => simpa [checkIntervalExceeded, hlast, pure, Except.pure] using hwhy.interval
  | some f =>
    obtain ⟨hbefore, d, hd, hle⟩ := lastFull_date hsrc hdates hdest hi hsnaps hpre hlast
    have happrox := approxDays_lt_of_checkInterval hd he (hlast ▸ hwhy.interval)
    refine ⟨f, d, e, hbefore, hd, he, happrox, fun hnewer => ?_⟩
    obtain ⟨n, hn, hnumber⟩ := Date.exists_iterate (hle hnewer e he)
    have hdrift := Date.dayNumber_le_approxDays d e
    exact ⟨n, hn, by omega⟩

def monthEndMeta : DestMeta := DestMeta.new 0 0 [⟨.plain "20230131", none, []⟩]

def monthEndSource : SourceState :=
  ⟨Series.new "root" [.plain "20230131", .plain "20230201"]⟩

/-- At the end of a month, with an interval of one day. -/
theorem incremental_within_interval_monthEnd :
    ∃ f d e, FullBefore ⟨some monthEndMeta⟩ [] f ∧ f.date = some d ∧
      (Timestamp.plain "20230201").date = some e ∧ e.approxDays < d.approxDays + 1 ∧
      (NoNewerFull ⟨some monthEndMeta⟩ [] (.plain "20230201") → ∃ n, Date.next^[n] d = e ∧
        n + d.leapDays < 1 + 5 + e.leapDays) :=
  have hdates : ∀ s ∈ monthEndSource.snapshots, s.date.isSome := by decide
  have hdest : ∀ a ∈ DestState.archives ⟨some monthEndMeta⟩, a.timestamp.date.isSome := by
    decide
  have h : buildPlan monthEndSource ⟨some monthEndMeta⟩ ⟨⟨1⟩, none⟩ =
      .ok ⟨[.sendIncremental (.plain "20230201") (.plain "20230131")]⟩ := by decide
  incremental_within_interval (by decide)
    (fun s hs => Option.isSome_iff_exists.mp (hdates s hs))
    (fun a ha _ => Option.isSome_iff_exists.mp (hdest a ha)) h
    (List.nil_append _).symm

/-- Before anything is planned the full archives are those of the destination. -/
theorem not_within_of_archives {dest : DestState} {s : Timestamp} {days : ℕ}
    (h : ∀ a ∈ dest.archives, ∀ n < days, ¬ DaysAfter a.timestamp s n) :
    ¬ ∃ f n, FullBefore dest [] f ∧ DaysAfter f s n ∧ n < days := by
  rintro ⟨f, n, ⟨a, ha, -, rfl⟩ | hf, hafter, hn⟩
  · exact h a ha n hn hafter
  · simp at hf

def twoFullsMeta : DestMeta :=
  DestMeta.new 0 0 [⟨.plain "20230101", none, []⟩, ⟨.plain "20230110", none, []⟩]

def twoFullsSource : SourceState :=
  ⟨Series.new "root" [.plain "20230101", .plain "20230105"]⟩

/-- By the approximate count there is no day between the ends of January and the start of
February, and the distance to a newer full send is negative. -/
theorem incremental_beyond_interval :
    (monthEndSource.Parsed ∧ WellFormed monthEndMeta.archives ∧
      buildPlan monthEndSource ⟨some monthEndMeta⟩ ⟨⟨1⟩, none⟩ =
        .ok ⟨[.sendIncremental (.plain "20230201") (.plain "20230131")]⟩ ∧
      ¬ ∃ f n, FullBefore ⟨some monthEndMeta⟩ [] f ∧ DaysAfter f (.plain "20230201") n ∧
        n < 1) ∧
    (twoFullsSource.Parsed ∧ WellFormed twoFullsMeta.archives ∧
      buildPlan twoFullsSource ⟨some twoFullsMeta⟩ ⟨⟨3⟩, none⟩ =
        .ok ⟨[.sendIncremental (.plain "20230105") (.plain "20230101")]⟩ ∧
      ¬ ∃ f n, FullBefore ⟨some twoFullsMeta⟩ [] f ∧ DaysAfter f (.plain "20230105") n ∧
        n < 3) := by
  refine ⟨⟨by decide, .of_full (by decide) (by decide), by decide,
    not_within_of_archives (by decide +kernel)⟩, by decide,
    .of_full (by decide) (by decide), by decide, not_within_of_archives (by decide +kernel)⟩

end Bbkar
