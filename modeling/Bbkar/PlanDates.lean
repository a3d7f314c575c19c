import Bbkar.Convergence
import Bbkar.PlanParents
import Bbkar.Digits

/-!
# When planning reads dates

Dates are sliced out of timestamps at fixed bytes, guarded by the length in bytes only, so
a character that takes up several bytes can make planning panic. Which dates are read does
not depend on the policy: an incremental step keeps an older full send as the last one,
but only when both of them have dates.
-/
namespace Bbkar
open KeySort

/-! ## Slices -/

/-- Characters end at the bytes 4 and 8, with these slices in front of them. -/
structure DateSlices (t : Timestamp) (year rest : List Char) : Prop where
  text : year ++ rest <+: t.timestamp.toList
  year : utf8Len year = 4
  rest : utf8Len rest = 4

/-- The text is short, or characters end at its bytes 4 and 8, and at byte 6 if the first
four bytes are a number. -/
def SliceableDate (t : Timestamp) : Prop :=
  utf8Len t.timestamp.toList < 8 ∨
    ∃ year rest, DateSlices t year rest ∧
      (parseI64 year = none ∨ ∃ month day, rest = month ++ day ∧ utf8Len month = 2)

/-- The three slices are numbers. -/
def HasDate (t : Timestamp) : Prop :=
  ∃ year rest, DateSlices t year rest ∧ parseI64 year ≠ none ∧
    ∃ month day, (rest = month ++ day ∧ utf8Len month = 2) ∧
      parseI64 month ≠ none ∧ parseI64 day ≠ none

theorem dateSlices_iff {t : Timestamp} {year rest : List Char} :
    DateSlices t year rest ↔
      ∃ date tail, splitAtByte 8 t.timestamp.toList = some (date, tail) ∧
        splitAtByte 4 date = some (year, rest) := by
  simp only [splitAtByte_eq_some]
  constructor
  · rintro ⟨⟨tail, htext⟩, hyear, hrest⟩
    exact ⟨_, tail, ⟨htext.symm, by rw [utf8Len_append, hyear, hrest]⟩, rfl, hyear⟩
  · rintro ⟨date, tail, ⟨htext, hdate⟩, rfl, hyear⟩
    rw [utf8Len_append, hyear] at hdate
    exact ⟨⟨tail, htext.symm⟩, hyear, by omega⟩

theorem DateSlices.length_le {t : Timestamp} {year rest : List Char}
    (h : DateSlices t year rest) : ¬ utf8Len t.timestamp.toList < 8 := by
  obtain ⟨⟨tail, htext⟩, hyear, hrest⟩ := h
  rw [← htext, utf8Len_append, utf8Len_append, hyear, hrest]
  omega

/-- What comes out of a text that is long enough. -/
theorem parseDateToDays_cases {t : Timestamp} (h : ¬ utf8Len t.timestamp.toList < 8) :
    (parseDateToDays t.timestamp = .error .panic ∧
      ∀ year rest, DateSlices t year rest →
        parseI64 year ≠ none ∧ splitAtByte 2 rest = none) ∨
    ∃ year rest, DateSlices t year rest ∧
      ((parseI64 year = none ∧ parseDateToDays t.timestamp = .ok none) ∨
        ∃ y month day, parseI64 year = some y ∧ splitAtByte 2 rest = some (month, day) ∧
          parseDateToDays t.timestamp = .ok ((parseI64 month).bind fun m =>
            (parseI64 day).map fun d => y * 365 + m * 30 + d)) := by
  simp only [dateSlices_iff, parseDateToDays, if_neg h]
  cases h8 : splitAtByte 8 t.timestamp.toList with
  | none => simp [orPanic, bind, Except.bind]
  | some p =>
    obtain ⟨date, tail⟩ := p
    cases h4 : splitAtByte 4 date with
    | none => simp [orPanic, h4, bind, Except.bind]
    | some q =>
      obtain ⟨year, rest⟩ := q
      cases hy : parseI64 year with
      | none =>
        exact Or.inr ⟨year, rest, ⟨date, tail, rfl, h4⟩,
          Or.inl ⟨hy, by simp [orPanic, h4, hy, bind, Except.bind, pure, Except.pure]⟩⟩
      | some y =>
        cases h2 : splitAtByte 2 rest with
        | none =>
          refine Or.inl ⟨by simp [orPanic, h4, hy, h2, bind, Except.bind], ?_⟩
          rintro year' rest' ⟨date', tail', hdate, hyear⟩
          obtain ⟨rfl, rfl⟩ := Prod.mk.inj (Option.some.inj hdate)
          obtain ⟨rfl, rfl⟩ := Prod.mk.inj (Option.some.inj (h4.symm.trans hyear))
          exact ⟨by simp [hy], h2⟩
        | some r =>
          obtain ⟨month, day⟩ := r
          refine Or.inr ⟨year, rest, ⟨date, tail, rfl, h4⟩,
            Or.inr ⟨y, month, day, hy, h2, ?_⟩⟩
          cases hm : parseI64 month <;> cases hd : parseI64 day <;>
            simp [orPanic, h4, hy, h2, hm, hd, bind, Except.bind, pure, Except.pure]

theorem DateSlices.unique {t : Timestamp} {year rest year' rest' : List Char}
    (h : DateSlices t year rest) (h' : DateSlices t year' rest') :
    year = year' ∧ rest = rest' := by
  obtain ⟨date, tail, hdate, hyear⟩ := dateSlices_iff.mp h
  obtain ⟨date', tail', hdate', hyear'⟩ := dateSlices_iff.mp h'
  obtain ⟨rfl, rfl⟩ := Prod.mk.inj (Option.some.inj (hdate.symm.trans hdate'))
  exact Prod.mk.inj (Option.some.inj (hyear.symm.trans hyear'))

theorem readableDate_iff {t : Timestamp} : ReadableDate t ↔ SliceableDate t := by
  by_cases hshort : utf8Len t.timestamp.toList < 8
  · exact iff_of_true ⟨none, by simp [parseDateToDays, hshort, pure, Except.pure]⟩
      (Or.inl hshort)
  simp only [ReadableDate, SliceableDate, hshort, false_or, ← splitAtByte_eq_some]
  rcases parseDateToDays_cases hshort with ⟨hpanic, hnone⟩ | ⟨year, rest, hslices, hcases⟩
  · refine iff_of_false (by simp [hpanic]) ?_
    rintro ⟨year, rest, hslices, hyear | ⟨month, day, hmonth⟩⟩
    · exact (hnone year rest hslices).1 hyear
    · simp [(hnone year rest hslices).2] at hmonth
  · rcases hcases with ⟨hyear, hok⟩ | ⟨y, month, day, -, hmonth, hok⟩
    · exact iff_of_true ⟨_, hok⟩ ⟨year, rest, hslices, Or.inl hyear⟩
    · exact iff_of_true ⟨_, hok⟩ ⟨year, rest, hslices, Or.inr ⟨month, day, hmonth⟩⟩

theorem hasDate_iff {t : Timestamp} :
    HasDate t ↔ ∃ days, parseDateToDays t.timestamp = .ok (some days) := by
  by_cases hshort : utf8Len t.timestamp.toList < 8
  · refine iff_of_false ?_ (by simp [parseDateToDays, hshort, pure, Except.pure])
    rintro ⟨year, rest, hslices, -⟩
    exact hslices.length_le hshort
  simp only [HasDate, ← splitAtByte_eq_some]
  rcases parseDateToDays_cases hshort with ⟨hpanic, hnone⟩ | ⟨year, rest, hslices, hcases⟩
  · refine iff_of_false ?_ (by simp [hpanic])
    rintro ⟨year, rest, hslices, -, month, day, hmonth, -⟩
    simp [(hnone year rest hslices).2] at hmonth
  · have hunique : ∀ {year' rest'}, DateSlices t year' rest' → year' = year ∧ rest' = rest :=
      fun h => h.unique hslices
    rcases hcases with ⟨hyear, hok⟩ | ⟨y, month, day, hyear, hmonth, hok⟩
    · refine iff_of_false ?_ (by simp [hok])
      rintro ⟨year', rest', hslices', hyear', -⟩
      obtain ⟨rfl, -⟩ := hunique hslices'
      exact hyear' hyear
    · rw [hok]
      constructor
      · rintro ⟨year', rest', hslices', -, month', day', hmonth', hm, hd⟩
        obtain ⟨-, rfl⟩ := hunique hslices'
        obtain ⟨rfl, rfl⟩ := Prod.mk.inj (Option.some.inj (hmonth.symm.trans hmonth'))
        obtain ⟨m, hm⟩ := Option.ne_none_iff_exists'.mp hm
        obtain ⟨d, hd⟩ := Option.ne_none_iff_exists'.mp hd
        exact ⟨_, by rw [hm, hd]; rfl⟩
      · rintro ⟨days, hdays⟩
        refine ⟨year, rest, hslices, by simp [hyear], month, day, hmonth, ?_⟩
        cases hm : parseI64 month <;> cases hd : parseI64 day <;> simp [hm, hd] at hdays ⊢

theorem HasDate.sliceable {t : Timestamp} (h : HasDate t) : SliceableDate t := by
  obtain ⟨days, hdays⟩ := hasDate_iff.mp h
  exact readableDate_iff.mp ⟨_, hdays⟩

/-! ## One check -/

/-- The date of `l` can be read and, if there is one, the date of `s` too. -/
def Comparable (l s : Timestamp) : Prop := SliceableDate l ∧ (HasDate l → SliceableDate s)

/-- The date of the snapshot is read only when the last full send has one. -/
theorem checkIntervalExceeded_isOk_iff {lastFull : Option Timestamp} {s : Timestamp}
    {interval : CalendarDuration} :
    (∃ b, checkIntervalExceeded lastFull s interval = .ok b) ↔
      ∀ l, lastFull = some l → Comparable l s := by
  cases lastFull with
  | none => simp [checkIntervalExceeded, pure, Except.pure]
  | some l =>
    simp only [Option.some.injEq, forall_eq', Comparable, ← readableDate_iff, hasDate_iff,
      ReadableDate, checkIntervalExceeded, bind, Except.bind]
    cases hl : parseDateToDays l.timestamp with
    | error e => simp
    | ok days =>
      cases days with
      | none => simp [pure, Except.pure]
      | some d =>
        cases hs : parseDateToDays s.timestamp with
        | error e => simp
        | ok days => cases days <;> simp [pure, Except.pure]

/-- A check that does not ask for a full send has compared two dates. -/
theorem checkIntervalExceeded_false {lastFull : Option Timestamp} {s : Timestamp}
    {interval : CalendarDuration} (h : checkIntervalExceeded lastFull s interval = .ok false) :
    ∃ l, lastFull = some l ∧ HasDate l ∧ HasDate s := by
  cases lastFull with
  | none => simp [checkIntervalExceeded, pure, Except.pure] at h
  | some l =>
    refine ⟨l, rfl, ?_⟩
    simp only [hasDate_iff]
    simp only [checkIntervalExceeded, bind, Except.bind] at h
    cases hl : parseDateToDays l.timestamp with
    | error e => simp [hl] at h
    | ok days =>
      cases days with
      | none => simp [hl, pure, Except.pure] at h
      | some d =>
        cases hs : parseDateToDays s.timestamp with
        | error e => simp [hl, hs] at h
        | ok days =>
          cases days with
          | none => simp [hl, hs, pure, Except.pure] at h
          | some e => exact ⟨⟨d, rfl⟩, e, rfl⟩

/-- Both dates can be sliced or neither, and both are dates or neither. -/
structure SameReading (q l : Timestamp) : Prop where
  sliceable : SliceableDate q ↔ SliceableDate l
  hasDate : HasDate q ↔ HasDate l

theorem SameReading.refl (q : Timestamp) : SameReading q q := ⟨Iff.rfl, Iff.rfl⟩

theorem SameReading.of_hasDate {q l : Timestamp} (hq : HasDate q) (hl : HasDate l) :
    SameReading q l :=
  ⟨iff_of_true hq.sliceable hl.sliceable, iff_of_true hq hl⟩

theorem SameReading.comparable_iff {q l s : Timestamp} (h : SameReading q l) :
    Comparable l s ↔ Comparable q s := by
  rw [Comparable, Comparable, h.sliceable, h.hasDate]

/-! ## The loop -/

/-- The timestamp that the date of an unarchived snapshot is compared with, or one that
reads the same: the unarchived snapshot before it, or else the most recent full archive
when some snapshot below is archived. -/
def ComparedTo (src : SourceState) (dest : DestState) (s q : Timestamp) : Prop :=
  BestParent src (· ∉ raws dest.archives) s q ∨
    (∀ u ∈ src.snapshots, u < s → u.raw ∈ raws dest.archives) ∧
      (∃ u ∈ src.snapshots, u < s) ∧ lastFullOf dest.archives = some q

/-- The loop variables after the snapshots `pre`. -/
structure Reading (src : SourceState) (dest : DestState) (pre : List Timestamp)
    (st : PlanState) : Prop where
  destSet : ∀ name, name ∈ st.destSet ↔
    name ∈ raws dest.archives ∨ ∃ u ∈ pre, u.raw = name
  lastFull : (∀ u ∈ pre, u.raw ∈ raws dest.archives) ∧
      st.lastFull = lastFullOf dest.archives ∨
    ∃ q ∈ pre, q.raw ∉ raws dest.archives ∧
      (∀ u ∈ pre, u.raw ∉ raws dest.archives → u ≤ q) ∧
      ∃ l, st.lastFull = some l ∧ SameReading q l

namespace Reading

variable {policy : SendPolicy} {src : SourceState} {dest : DestState}
  {pre rest : List Timestamp} {st st' : PlanState} {s : Timestamp}

theorem mem_pre (hsnaps : src.snapshots = pre ++ s :: rest) {u : Timestamp}
    (hu : u ∈ src.snapshots) (hlt : u < s) : u ∈ pre := by
  have hsorted : (pre ++ s :: rest).Pairwise (· ≤ ·) := hsnaps ▸ src.volume.sorted
  rw [hsnaps] at hu
  rcases List.mem_append.mp hu with hu | hu
  · exact hu
  · have hle : s ≤ u := by
      rcases List.mem_cons.mp hu with rfl | hu
      · exact le_rfl
      · exact (List.pairwise_cons.mp (List.pairwise_append.mp hsorted).2.1).1 u hu
    exact absurd hlt (not_lt.mpr hle)

theorem lt_of_mem (h : Reading src dest pre st) (hsnaps : src.snapshots = pre ++ s :: rest)
    (hs : s.raw ∉ st.destSet) {u : Timestamp} (hu : u ∈ pre) : u < s := by
  have hsorted : (pre ++ s :: rest).Pairwise (· ≤ ·) := hsnaps ▸ src.volume.sorted
  refine lt_of_le_of_ne ((List.pairwise_append.mp hsorted).2.2 u hu s (by simp)) ?_
  rintro rfl
  exact hs ((h.destSet _).mpr (Or.inr ⟨u, hu, rfl⟩))

/-- Without a candidate no date is read. -/
theorem not_comparedTo (h : Reading src dest pre st)
    (hsnaps : src.snapshots = pre ++ s :: rest)
    (hnone : findParentCandidate s st.destSet (srcNamesOf src) src = none) (q : Timestamp) :
    ¬ ComparedTo src dest s q := by
  have hbelow : ∀ u ∈ src.snapshots, ¬ u < s := fun u hu hlt =>
    findParentCandidate_none hnone u hu hlt
      ((h.destSet _).mpr (Or.inr ⟨u, mem_pre hsnaps hu hlt, rfl⟩))
  rintro (hbest | ⟨-, ⟨u, hu, hlt⟩, -⟩)
  · exact hbelow q hbest.mem hbest.below
  · exact hbelow u hu hlt

/-- With a candidate the last full send reads like the timestamp compared with. -/
theorem comparable_iff (h : Reading src dest pre st)
    (hsnaps : src.snapshots = pre ++ s :: rest) (hs : s.raw ∉ st.destSet) {p : Timestamp}
    (hp : findParentCandidate s st.destSet (srcNamesOf src) src = some p) :
    (∀ l, st.lastFull = some l → Comparable l s) ↔
      ∀ q, ComparedTo src dest s q → Comparable q s := by
  obtain ⟨hpmem, hplt, -, -⟩ := findParentCandidate_some hp
  rcases h.lastFull with ⟨hall, hlast⟩ | ⟨q₀, hq₀, hnew, hmax, l, hl, hsame⟩
  · have hcompared : ∀ q, ComparedTo src dest s q ↔ lastFullOf dest.archives = some q := by
      intro q
      constructor
      · rintro (hbest | ⟨-, -, hq⟩)
        · exact absurd (hall q (mem_pre hsnaps hbest.mem hbest.below)) hbest.archived
        · exact hq
      · intro hq
        exact Or.inr ⟨fun u hu hlt => hall u (mem_pre hsnaps hu hlt), ⟨p, hpmem, hplt⟩, hq⟩
    simp only [hlast, hcompared]
  · have hlt := h.lt_of_mem hsnaps hs hq₀
    have hmem : q₀ ∈ src.snapshots := by simp [hsnaps, hq₀]
    have hbest : BestParent src (· ∉ raws dest.archives) s q₀ :=
      ⟨hmem, hlt, hnew, fun u hu hlt hu' => hmax u (mem_pre hsnaps hu hlt) hu'⟩
    have hcompared : ∀ q, ComparedTo src dest s q ↔ q = q₀ := by
      intro q
      constructor
      · rintro (hq | ⟨hall, -, -⟩)
        · exact hq.unique hbest
        · exact absurd (hall q₀ hmem hlt) hnew
      · rintro rfl
        exact Or.inl hbest
    simp only [hl, Option.some.injEq, forall_eq', hcompared, forall_eq, hsame.comparable_iff]

/-- One snapshot is planned when the dates it needs can be read. -/
theorem planSnapshot_isOk_iff (h : Reading src dest pre st)
    (hsnaps : src.snapshots = pre ++ s :: rest) (hs : s.raw ∉ st.destSet) :
    (∃ st', planSnapshot policy src (srcNamesOf src) st s = .ok st') ↔
      ∀ q, ComparedTo src dest s q → Comparable q s := by
  cases hp : findParentCandidate s st.destSet (srcNamesOf src) src with
  | none =>
    refine iff_of_true ⟨_, planSnapshot_no_parent hs hp⟩ fun q hq => ?_
    exact absurd hq (h.not_comparedTo hsnaps hp q)
  | some p =>
    have hcheck := @checkIntervalExceeded_isOk_iff st.lastFull s policy.minFullSendInterval
    rw [← h.comparable_iff hsnaps hs hp, planSnapshot_candidate hs hp, decideFull, ← hcheck]
    cases checkIntervalExceeded st.lastFull s policy.minFullSendInterval <;> simp [Except.map]

theorem skip (h : Reading src dest pre st) (hs : s.raw ∈ st.destSet)
    (hseen : s.raw ∉ raws dest.archives → s ∈ pre) : Reading src dest (pre ++ [s]) st := by
  refine ⟨fun name => ?_, ?_⟩
  · rw [h.destSet]
    constructor
    · rintro (hname | ⟨u, hu, rfl⟩)
      · exact Or.inl hname
      · exact Or.inr ⟨u, by simp [hu], rfl⟩
    · rintro (hname | ⟨u, hu, rfl⟩)
      · exact Or.inl hname
      · rcases List.mem_append.mp hu with hu | hu
        · exact Or.inr ⟨u, hu, rfl⟩
        · obtain rfl := List.mem_singleton.mp hu
          exact (h.destSet _).mp hs
  · rcases h.lastFull with ⟨hall, hlast⟩ | ⟨q, hq, hnew, hmax, hl⟩
    · refine Or.inl ⟨fun u hu => ?_, hlast⟩
      rcases List.mem_append.mp hu with hu | hu
      · exact hall u hu
      · obtain rfl := List.mem_singleton.mp hu
        by_contra hn
        exact hn (hall u (hseen hn))
    · refine Or.inr ⟨q, by simp [hq], hnew, fun u hu hu' => ?_, hl⟩
      rcases List.mem_append.mp hu with hu | hu
      · exact hmax u hu hu'
      · obtain rfl := List.mem_singleton.mp hu
        exact hmax u (hseen hu') hu'

/-- After a snapshot is planned the last full send reads like that snapshot. -/
theorem planned (h : Reading src dest pre st) (hsnaps : src.snapshots = pre ++ s :: rest)
    (hs : s.raw ∉ st.destSet)
    (hplan : planSnapshot policy src (srcNamesOf src) st s = .ok st') :
    Reading src dest (pre ++ [s]) st' := by
  have hset : ∀ name, name ∈ insert s.raw st.destSet ↔
      name ∈ raws dest.archives ∨ ∃ u ∈ pre ++ [s], u.raw = name := by
    intro name
    rw [Finset.mem_insert, h.destSet]
    simp [or_and_right, exists_or, or_comm, or_assoc, eq_comm]
  have hnew : s.raw ∉ raws dest.archives := fun hmem => hs ((h.destSet _).mpr (Or.inl hmem))
  have hmax : ∀ u ∈ pre ++ [s], u.raw ∉ raws dest.archives → u ≤ s := by
    intro u hu _
    rcases List.mem_append.mp hu with hu | hu
    · exact (h.lt_of_mem hsnaps hs hu).le
    · exact (List.mem_singleton.mp hu).le
  rcases planSnapshot_cases hplan with ⟨hin, -⟩ | ⟨-, -, rfl⟩ | ⟨-, p, hwhy, rfl⟩
  · exact absurd hin hs
  · exact ⟨hset, Or.inr ⟨s, by simp, hnew, hmax, s, rfl, .refl s⟩⟩
  · obtain ⟨l, hl, hldate, hsdate⟩ := checkIntervalExceeded_false hwhy.interval
    exact ⟨hset, Or.inr ⟨s, by simp, hnew, hmax, l, hl, .of_hasDate hsdate hldate⟩⟩

/-- The rest of the loop returns when the dates it needs can be read. -/
theorem planLoop_isOk_iff (hsrc : src.Parsed) (h : Reading src dest pre st)
    (hsnaps : src.snapshots = pre ++ rest) :
    (∃ st', planLoop policy src rest st = .ok st') ↔
      ∀ s ∈ rest, s.raw ∉ st.destSet → ∀ q, ComparedTo src dest s q → Comparable q s := by
  induction rest generalizing pre st with
  | nil => simp
  | cons s rest ih =>
    have hsnaps' : src.snapshots = (pre ++ [s]) ++ rest := by simp [hsnaps]
    have hmem : ∀ u ∈ pre ++ s :: rest, u.Parsed := fun u hu => hsrc u (hsnaps ▸ hu)
    rw [planLoop_cons]
    by_cases hs : s.raw ∈ st.destSet
    · have hseen : s.raw ∉ raws dest.archives → s ∈ pre := by
        intro hnew
        obtain ⟨u, hu, huraw⟩ := ((h.destSet _).mp hs).resolve_left hnew
        rwa [(hmem u (by simp [hu])).ext (hmem s (by simp)) huraw] at hu
      rw [planSnapshot_skip hs, Except.bind, ih (h.skip hs hseen) hsnaps']
      simp [hs]
    · have hstep : (∃ st', planSnapshot policy src (srcNamesOf src) st s = .ok st') ↔ _ :=
        h.planSnapshot_isOk_iff hsnaps hs
      cases hplan : planSnapshot policy src (srcNamesOf src) st s with
      | error e =>
        refine iff_of_false (by simp [Except.bind]) fun hall => ?_
        obtain ⟨st₁, hok⟩ := hstep.mpr (hall s (by simp) hs)
        simp [hplan] at hok
      | ok st₁ =>
        have hcomparable := hstep.mp ⟨st₁, hplan⟩
        have hnext := h.planned hsnaps hs hplan
        have hset : ∀ name, name ∈ st₁.destSet ↔ name = s.raw ∨ name ∈ st.destSet := by
          intro name
          rw [hnext.destSet, h.destSet]
          simp [or_and_right, exists_or, or_comm, or_assoc, eq_comm]
        rw [Except.bind, ih hnext hsnaps']
        constructor
        · intro hrest u hu hin
          have hu' : u ∈ pre ++ s :: rest := List.mem_append_right _ hu
          by_cases hsame : u.raw = s.raw
          · rw [(hmem u hu').ext (hmem s (by simp)) hsame]
            exact hcomparable
          · have hu : u ∈ rest := (List.mem_cons.mp hu).resolve_left fun h => hsame (by rw [h])
            exact hrest u hu fun hin' => ((hset _).mp hin').elim hsame hin
        · intro hall u hu hin
          exact hall u (List.mem_cons_of_mem _ hu) fun hin' => hin ((hset _).mpr (Or.inr hin'))

end Reading

/-- Every comparison of a snapshot still to be sent can be made. -/
def DatesCompare (src : SourceState) (dest : DestState) : Prop :=
  ∀ s ∈ src.snapshots, s.raw ∉ raws dest.archives →
    ∀ q, ComparedTo src dest s q → SliceableDate q ∧ (HasDate q → SliceableDate s)

/-- Once the depths are computed, planning returns exactly when the dates can be compared. -/
theorem buildPlan_isOk_iff_datesCompare {src : SourceState} (hsrc : src.Parsed)
    {dest : DestState} {st : PlanState} (hi : initialPlanState dest.archives = .ok st)
    {policy : SendPolicy} :
    (∃ plan, buildPlan src dest policy = .ok plan) ↔ DatesCompare src dest := by
  obtain ⟨hset, -, hlast, -⟩ := initialPlanState_ok hi
  have hreading : Reading src dest [] st :=
    ⟨fun name => by simp [hset], Or.inl ⟨by simp, hlast⟩⟩
  have hloop : (∃ st', planLoop policy src src.snapshots st = .ok st') ↔ _ :=
    hreading.planLoop_isOk_iff hsrc (List.nil_append _).symm
  have hnew : ∀ s : Timestamp, s.raw ∉ st.destSet ↔ s.raw ∉ raws dest.archives := by
    intro s
    rw [hset, List.mem_toFinset]
  simp only [hnew] at hloop
  refine Iff.trans ?_ hloop
  constructor
  · rintro ⟨plan, h⟩
    obtain ⟨st₀, st', hi₀, hl, -⟩ := buildPlan_eq_ok.mp h
    obtain rfl := Except.ok.inj (hi.symm.trans hi₀)
    exact ⟨st', hl⟩
  · rintro ⟨st', hl⟩
    exact ⟨_, buildPlan_eq_ok.mpr ⟨st, st', hi, hl, rfl⟩⟩

/-- Planning returns exactly when the dates it compares can be read. -/
theorem buildPlan_isOk_iff {src : SourceState} (hsrc : src.Parsed) {dest : DestState}
    (hacyclic : AcyclicParents dest.archives) {policy : SendPolicy} :
    (∃ plan, buildPlan src dest policy = .ok plan) ↔
      ∀ s ∈ src.snapshots, s.raw ∉ raws dest.archives →
        ∀ q, ComparedTo src dest s q → SliceableDate q ∧ (HasDate q → SliceableDate s) := by
  obtain ⟨st, hi⟩ := initialPlanState_isOk hacyclic
  exact buildPlan_isOk_iff_datesCompare hsrc hi

/-- The date of the second snapshot would end inside a character. -/
def accentedSource : SourceState :=
  ⟨Series.new "root" [.plain "20230101", .plain "2023010é"]⟩

/-- With nothing archived the second snapshot is compared with the first one. -/
theorem buildPlan_panics_accented :
    accentedSource.Parsed ∧ AcyclicParents (DestState.archives ⟨none⟩) ∧
      buildPlan accentedSource ⟨none⟩ ⟨⟨7⟩, some 30⟩ = .error .panic := by
  refine ⟨by decide, WellFormed.nil.acyclic, by decide⟩

theorem buildPlan_isOk_iff_weekly :
    (∃ plan, buildPlan gapSource ⟨some gapMeta⟩ ⟨⟨7⟩, some 30⟩ = .ok plan) ↔
      ∀ s ∈ gapSource.snapshots, s.raw ∉ raws (DestState.archives ⟨some gapMeta⟩) →
        ∀ q, ComparedTo gapSource ⟨some gapMeta⟩ s q →
          SliceableDate q ∧ (HasDate q → SliceableDate s) :=
  have hw : WellFormed (DestState.archives ⟨some gapMeta⟩) := .of_full (by decide) (by decide)
  buildPlan_isOk_iff (by decide) hw.acyclic

end Bbkar
