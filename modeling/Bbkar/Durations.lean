import Bbkar.Digits
import Bbkar.Words

/-!
# Durations and schedules

Translation of `CalendarDuration::parse`, `PreserveSchedule::parse` and `Weekday::parse`.
The last byte of a token is split off as its unit, which panics inside a character. The
product of count and unit panics past `u32` when the build checks overflow, and wraps when
it does not.
-/
namespace Bbkar
open Words

/-! ## Strings and integers of the standard library -/

/-- The Unicode property `White_Space`. -/
def isWhitespace (c : Char) : Bool :=
  let n := c.toNat
  (9 ≤ n && n ≤ 13) || n == 0x20 || n == 0x85 || n == 0xA0 || n == 0x1680 ||
    (0x2000 ≤ n && n ≤ 0x200A) || n == 0x2028 || n == 0x2029 || n == 0x202F || n == 0x205F ||
    n == 0x3000

/-- `u32::from_str`: an optional plus sign, digits, and a range check. -/
def parseU32 : List Char → Option ℕ
  | '+' :: ds => (parseDigits ds).bind fun n => if n < 2 ^ 32 then some n else none
  | ds => (parseDigits ds).bind fun n => if n < 2 ^ 32 then some n else none

/-- The product of two `u32` values in a build with or without overflow checks. -/
def mulU32 (overflowChecks : Bool) (a b : ℕ) : BR ℕ :=
  if a * b < 2 ^ 32 then .ok (a * b)
  else if overflowChecks then .error .panic
  else .ok (a * b % 2 ^ 32)

theorem mulU32_of_lt {overflowChecks : Bool} {a b : ℕ} (h : a * b < 2 ^ 32) :
    mulU32 overflowChecks a b = .ok (a * b) := if_pos h

theorem mulU32_of_not_lt (overflowChecks : Bool) {a b : ℕ} (h : ¬ a * b < 2 ^ 32) :
    mulU32 overflowChecks a b = .error .panic ∨ ∃ d, mulU32 overflowChecks a b = .ok d := by
  rw [mulU32, if_neg h]
  cases overflowChecks
  · exact Or.inr ⟨_, rfl⟩
  · exact Or.inl rfl

/-- `s.split_at(s.len() - 1)` of a string that is not empty. -/
def splitLastByte (cs : List Char) : BR (List Char × List Char) :=
  orPanic (splitAtByte (utf8Len cs - 1) cs)

/-! ## Durations -/

/-- The days that a unit stands for. -/
def unitDays : List Char → Option ℕ
  | ['d'] => some 1
  | ['w'] => some 7
  | ['m'] => some 30
  | ['y'] => some 365
  | _ => none

def CalendarDuration.parse (overflowChecks : Bool) (s : String) :
    BR (Option CalendarDuration) := do
  let cs := trim isWhitespace s.toList
  if cs.isEmpty then return none
  let (numStr, unitChar) ← splitLastByte cs
  let some count := parseU32 numStr | return none
  let some multiplier := unitDays unitChar | return none
  let days ← mulU32 overflowChecks count multiplier
  return some ⟨days⟩

/-! ## Schedules -/

inductive TimeUnit where
  | day
  | week
  | month
  | year
  deriving DecidableEq, Repr

inductive PreserveCount where
  | finite (n : ℕ)
  | all
  deriving DecidableEq, Repr

structure PreserveBucket where
  count : PreserveCount
  unit : TimeUnit
  deriving DecidableEq, Repr

structure PreserveSchedule where
  buckets : List PreserveBucket
  deriving DecidableEq, Repr

def timeUnit : List Char → Option TimeUnit
  | ['d'] => some .day
  | ['w'] => some .week
  | ['m'] => some .month
  | ['y'] => some .year
  | _ => none

def preserveCount (countStr : List Char) : Option PreserveCount :=
  if countStr = ['*'] then some .all else (parseU32 countStr).map .finite

/-- The loop over the tokens. A token that is no bucket ends it, unless it panics. -/
def parseBuckets (buckets : List PreserveBucket) :
    List (List Char) → BR (Option (List PreserveBucket))
  | [] => .ok (some buckets)
  | token :: tokens =>
    if token.isEmpty then parseBuckets buckets tokens
    else
      match splitLastByte token with
      | .error e => .error e
      | .ok (countStr, unitChar) =>
        match timeUnit unitChar with
        | none => .ok none
        | some unit =>
          match preserveCount countStr with
          | none => .ok none
          | some count => parseBuckets (buckets ++ [⟨count, unit⟩]) tokens

def PreserveSchedule.parse (s : String) : BR (Option PreserveSchedule) := do
  let cs := trim isWhitespace s.toList
  if cs.isEmpty then return none
  let some buckets ← parseBuckets [] (words isWhitespace cs) | return none
  if buckets.isEmpty then return none
  return some ⟨buckets⟩

/-! ## Weekdays -/

inductive Weekday where
  | monday
  | tuesday
  | wednesday
  | thursday
  | friday
  | saturday
  | sunday
  deriving DecidableEq, Repr

/-- No letter of a weekday is the lower case of a character outside ASCII. -/
def Weekday.parse (s : String) : Option Weekday :=
  match String.ofList ((trim isWhitespace s.toList).map Char.toLower) with
  | "monday" => some .monday
  | "tuesday" => some .tuesday
  | "wednesday" => some .wednesday
  | "thursday" => some .thursday
  | "friday" => some .friday
  | "saturday" => some .saturday
  | "sunday" => some .sunday
  | _ => none

example : PreserveSchedule.parse "30d 12w 6m *y" =
    .ok (some ⟨[⟨.finite 30, .day⟩, ⟨.finite 12, .week⟩, ⟨.finite 6, .month⟩, ⟨.all, .year⟩]⟩) := by
  decide +kernel

/-! ## Splitting off the last byte -/

theorem splitLastByte_ascii {cs : List Char} {c : Char} (hc : c.utf8Size = 1) :
    splitLastByte (cs ++ [c]) = .ok (cs, [c]) := by
  have hsplit : splitAtByte (utf8Len (cs ++ [c]) - 1) (cs ++ [c]) = some (cs, [c]) :=
    splitAtByte_eq_some.mpr ⟨rfl, by simp [hc]⟩
  rw [splitLastByte, hsplit]
  rfl

theorem splitLastByte_wide {cs : List Char} {c : Char} (hc : c.utf8Size ≠ 1) :
    splitLastByte (cs ++ [c]) = .error .panic := by
  cases hsplit : splitAtByte (utf8Len (cs ++ [c]) - 1) (cs ++ [c]) with
  | none => rw [splitLastByte, hsplit]; rfl
  | some parts =>
    -- the second part would be a single byte, hence the last character
    obtain ⟨a, b⟩ := parts
    obtain ⟨happend, hlen⟩ := splitAtByte_eq_some.mp hsplit
    have hwide := Char.utf8Size_pos c
    have htotal := congrArg utf8Len happend
    simp only [utf8Len_append, utf8Len_cons, utf8Len_nil] at htotal hlen
    rcases List.eq_nil_or_concat b with rfl | ⟨b, d, rfl⟩
    · simp only [utf8Len_nil] at htotal
      omega
    · rw [List.concat_eq_append, ← List.append_assoc] at happend
      obtain ⟨-, rfl⟩ : cs = a ++ b ∧ c = d := by
        simpa using List.append_inj' happend rfl
      simp only [List.concat_eq_append, utf8Len_append, utf8Len_cons, utf8Len_nil] at htotal
      omega

/-- The last character takes one byte, if there is one. -/
def EndsInOneByte (cs : List Char) : Prop := ∀ c, cs.getLast? = some c → c.utf8Size = 1

theorem endsInOneByte_concat {cs : List Char} {c : Char} :
    EndsInOneByte (cs ++ [c]) ↔ c.utf8Size = 1 := by
  simp [EndsInOneByte]

theorem unitDays_utf8Size {c : Char} (h : unitDays [c] ≠ none) : c.utf8Size = 1 := by
  unfold unitDays at h
  split at h <;> simp_all <;> decide

theorem timeUnit_utf8Size {c : Char} (h : timeUnit [c] ≠ none) : c.utf8Size = 1 := by
  unfold timeUnit at h
  split at h <;> simp_all <;> decide

/-! ## Parsers and what strings denote -/

section Denotes

variable {α : Type} {parse : BR (Option α)} {exact : Option α} {means : α → Prop}
  (h : ∀ a, exact = some a ↔ means a)
include h

/-- A parser finds what a string denotes exactly when it returns as the exact parser does. -/
theorem exists_ok_iff_exact :
    (∃ r, parse = .ok r ∧ ∀ a, r = some a ↔ means a) ↔ parse = .ok exact := by
  constructor
  · rintro ⟨r, hparse, hr⟩
    rw [hparse]
    refine congrArg Except.ok (Option.ext fun a => ?_)
    rw [hr, h]
  · exact fun hparse => ⟨_, hparse, h⟩

theorem isNone_of_denotes_nothing (hno : ∀ a, ¬ means a) : exact.isNone = true := by
  rw [Option.isNone_iff_eq_none, Option.eq_none_iff_forall_ne_some]
  exact fun a ha => hno a ((h a).mp ha)

end Denotes

/-! ## What a duration denotes -/

/-- A count of a unit of some days, whose product is a `u32`. -/
def DurationOf (s : String) (d : CalendarDuration) : Prop :=
  ∃ count unit n days, trim isWhitespace s.toList = count ++ [unit] ∧ parseU32 count = some n ∧
    unitDays [unit] = some days ∧ n * days < 2 ^ 32 ∧ d.days = n * days

/-- The same as a function. -/
def exactDuration (s : String) : Option CalendarDuration :=
  let cs := trim isWhitespace s.toList
  cs.getLast?.bind fun unit => (parseU32 cs.dropLast).bind fun n =>
    (unitDays [unit]).bind fun days => if n * days < 2 ^ 32 then some ⟨n * days⟩ else none

theorem exactDuration_eq_some {s : String} {d : CalendarDuration} :
    exactDuration s = some d ↔ DurationOf s d := by
  unfold exactDuration DurationOf
  simp only [Option.bind_eq_some_iff, Option.ite_none_right_eq_some, Option.some.injEq]
  constructor
  · rintro ⟨unit, hlast, n, hn, days, hdays, hlt, rfl⟩
    refine ⟨_, unit, n, days, ?_, hn, hdays, hlt, rfl⟩
    exact (List.dropLast_append_getLast? unit hlast).symm
  · rintro ⟨count, unit, n, days, hcs, hn, hdays, hlt, hd⟩
    refine ⟨unit, by simp [hcs], n, by simp [hcs, hn], days, hdays, hlt, ?_⟩
    rw [← hd]

/-- The last byte is a character, and the product of a valid count and unit is a `u32`. -/
structure DurationSafe (s : String) : Prop where
  ascii : EndsInOneByte (trim isWhitespace s.toList)
  fits : ∀ count unit n days, trim isWhitespace s.toList = count ++ [unit] →
    parseU32 count = some n → unitDays [unit] = some days → n * days < 2 ^ 32

section Concat

variable {s : String} {count : List Char} {unit : Char}
  (hcs : trim isWhitespace s.toList = count ++ [unit])
include hcs

theorem durationSafe_concat :
    DurationSafe s ↔ unit.utf8Size = 1 ∧ ∀ n days, parseU32 count = some n →
      unitDays [unit] = some days → n * days < 2 ^ 32 := by
  constructor
  · intro h
    exact ⟨endsInOneByte_concat.mp (hcs ▸ h.ascii), fun n days => h.fits count unit n days hcs⟩
  · rintro ⟨hunit, hfits⟩
    refine ⟨hcs ▸ endsInOneByte_concat.mpr hunit, fun count' unit' n days hcs' => ?_⟩
    obtain ⟨rfl, rfl⟩ : count = count' ∧ unit = unit' := by
      simpa using List.append_inj' (hcs.symm.trans hcs') rfl
    exact hfits n days

theorem exactDuration_concat :
    exactDuration s = (parseU32 count).bind fun n => (unitDays [unit]).bind fun days =>
      if n * days < 2 ^ 32 then some ⟨n * days⟩ else none := by
  simp [exactDuration, hcs]

theorem CalendarDuration.parse_concat (overflowChecks : Bool) (hunit : unit.utf8Size = 1) :
    CalendarDuration.parse overflowChecks s =
      match parseU32 count with
      | none => .ok none
      | some n =>
        match unitDays [unit] with
        | none => .ok none
        | some days => (mulU32 overflowChecks n days).map fun d => some ⟨d⟩ := by
  have hne : (count ++ [unit]).isEmpty = false := by simp
  simp only [CalendarDuration.parse, hcs, splitLastByte_ascii hunit, hne, Bool.false_eq_true,
    if_false, bind, Except.bind]
  cases parseU32 count with
  | none => rfl
  | some n =>
    cases unitDays [unit] with
    | none => rfl
    | some days =>
      simp only
      cases mulU32 overflowChecks n days <;> rfl

end Concat

/-- Parsing is exact, or it panics or multiplies past `u32` where there is no duration. -/
theorem CalendarDuration.parse_cases (overflowChecks : Bool) (s : String) :
    (DurationSafe s ∧ CalendarDuration.parse overflowChecks s = .ok (exactDuration s)) ∨
    (¬ DurationSafe s ∧ exactDuration s = none ∧
      (CalendarDuration.parse overflowChecks s = .error .panic ∨
        ∃ d, CalendarDuration.parse overflowChecks s = .ok (some d))) := by
  rcases List.eq_nil_or_concat (trim isWhitespace s.toList) with hcs | ⟨count, unit, hcs⟩
  · refine Or.inl ⟨⟨by simp [EndsInOneByte, hcs], by simp [hcs]⟩, ?_⟩
    simp [CalendarDuration.parse, exactDuration, hcs, pure, Except.pure]
  rw [List.concat_eq_append] at hcs
  rw [durationSafe_concat hcs, exactDuration_concat hcs]
  by_cases hunit : unit.utf8Size = 1
  · rw [CalendarDuration.parse_concat hcs overflowChecks hunit]
    cases hn : parseU32 count with
    | none => exact Or.inl ⟨⟨hunit, by simp⟩, rfl⟩
    | some n =>
      cases hdays : unitDays [unit] with
      | none => exact Or.inl ⟨⟨hunit, by simp⟩, rfl⟩
      | some days =>
        by_cases hlt : n * days < 2 ^ 32
        · refine Or.inl ⟨⟨hunit, ?_⟩, ?_⟩
          · rintro _ _ ⟨⟩ ⟨⟩
            exact hlt
          · simp only [mulU32_of_lt hlt, Except.map, Option.bind_some, if_pos hlt]
        · refine Or.inr ⟨fun h => hlt (h.2 n days rfl rfl), ?_, ?_⟩
          · simp only [Option.bind_some, if_neg hlt]
          · rcases mulU32_of_not_lt overflowChecks hlt with hpanic | ⟨d, hwrap⟩
            · exact Or.inl (by simp only [hpanic, Except.map])
            · exact Or.inr ⟨⟨d⟩, by simp only [hwrap, Except.map]⟩
  · have hnone : unitDays [unit] = none := by
      by_contra hsome
      exact hunit (unitDays_utf8Size hsome)
    refine Or.inr ⟨fun h => hunit h.1, by simp [hnone], Or.inl ?_⟩
    simp [CalendarDuration.parse, hcs, splitLastByte_wide hunit, bind, Except.bind]

/-- The string is parsed without a panic, and to the duration it denotes or to none. -/
def ParsesDuration (overflowChecks : Bool) (s : String) : Prop :=
  ∃ r, CalendarDuration.parse overflowChecks s = .ok r ∧ ∀ d, r = some d ↔ DurationOf s d

theorem parsesDuration_iff_exact {overflowChecks : Bool} {s : String} :
    ParsesDuration overflowChecks s ↔
      CalendarDuration.parse overflowChecks s = .ok (exactDuration s) :=
  exists_ok_iff_exact fun _ => exactDuration_eq_some

theorem parsesDuration_iff_safe {overflowChecks : Bool} {s : String} :
    ParsesDuration overflowChecks s ↔ DurationSafe s := by
  rw [parsesDuration_iff_exact]
  rcases CalendarDuration.parse_cases overflowChecks s with
    ⟨hsafe, hparse⟩ | ⟨hbad, hnone, hpanic | ⟨d, hsome⟩⟩
  · exact iff_of_true hparse hsafe
  · exact iff_of_false (by simp [hpanic]) hbad
  · exact iff_of_false (by simp [hsome, hnone]) hbad

/-! ## What a schedule denotes -/

/-- A count or a star, and a unit. -/
def BucketOf (token : List Char) (bucket : PreserveBucket) : Prop :=
  ∃ count unit, token = count ++ [unit] ∧ timeUnit [unit] = some bucket.unit ∧
    ((count = ['*'] ∧ bucket.count = .all) ∨
      ∃ n, parseU32 count = some n ∧ bucket.count = .finite n)

/-- There are tokens, and the buckets are those of the tokens in order. -/
def ScheduleOf (s : String) (schedule : PreserveSchedule) : Prop :=
  words isWhitespace s.toList ≠ [] ∧
    List.Forall₂ BucketOf (words isWhitespace s.toList) schedule.buckets

/-- The first token that is no bucket, if there is one, ends in a one-byte character. -/
def TokensSafe (tokens : List (List Char)) : Prop :=
  ∀ before token after, tokens = before ++ token :: after →
    (∀ t ∈ before, ∃ bucket, BucketOf t bucket) → EndsInOneByte token

def ScheduleSafe (s : String) : Prop := TokensSafe (words isWhitespace s.toList)

def exactBucket (token : List Char) : Option PreserveBucket :=
  token.getLast?.bind fun unit => (timeUnit [unit]).bind fun u =>
    (preserveCount token.dropLast).map fun count => ⟨count, u⟩

def exactSchedule (s : String) : Option PreserveSchedule :=
  if words isWhitespace s.toList = [] then none
  else ((words isWhitespace s.toList).mapM exactBucket).map PreserveSchedule.mk

theorem preserveCount_eq_some {countStr : List Char} {count : PreserveCount} :
    preserveCount countStr = some count ↔
      (countStr = ['*'] ∧ count = .all) ∨ ∃ n, parseU32 countStr = some n ∧ count = .finite n := by
  have hstar : parseU32 ['*'] = none := by decide
  unfold preserveCount
  split_ifs with h
  · simp [h, hstar, eq_comm]
  · simp [h, eq_comm]

theorem exactBucket_eq_some {token : List Char} {bucket : PreserveBucket} :
    exactBucket token = some bucket ↔ BucketOf token bucket := by
  unfold exactBucket BucketOf
  simp only [Option.bind_eq_some_iff, Option.map_eq_some_iff, preserveCount_eq_some]
  constructor
  · rintro ⟨unit, hlast, u, hu, count, hcount, rfl⟩
    exact ⟨_, unit, (List.dropLast_append_getLast? unit hlast).symm, hu, hcount⟩
  · rintro ⟨countStr, unit, rfl, hu, hcount⟩
    exact ⟨unit, by simp, _, hu, bucket.count, by simpa using hcount, rfl⟩

theorem mapM_exactBucket_eq_some {tokens : List (List Char)} {buckets : List PreserveBucket} :
    tokens.mapM exactBucket = some buckets ↔ List.Forall₂ BucketOf tokens buckets := by
  induction tokens generalizing buckets with
  | nil => cases buckets <;> simp
  | cons token tokens ih =>
    simp only [List.mapM_cons, Option.bind_eq_bind, Option.bind_eq_some_iff, Option.pure_def,
      Option.some.injEq, exactBucket_eq_some, ih]
    constructor
    · rintro ⟨bucket, hbucket, rest, hrest, rfl⟩
      exact .cons hbucket hrest
    · intro h
      cases h with
      | cons hbucket hrest => exact ⟨_, hbucket, _, hrest, rfl⟩

theorem exactSchedule_eq_some {s : String} {schedule : PreserveSchedule} :
    exactSchedule s = some schedule ↔ ScheduleOf s schedule := by
  unfold exactSchedule ScheduleOf
  split_ifs with h
  · simp [h]
  · simp only [Option.map_eq_some_iff, mapM_exactBucket_eq_some, h, ne_eq, not_false_eq_true,
      true_and]
    constructor
    · rintro ⟨buckets, hbuckets, rfl⟩
      exact hbuckets
    · exact fun hbuckets => ⟨_, hbuckets, rfl⟩

theorem tokensSafe_cons {token : List Char} {tokens : List (List Char)} :
    TokensSafe (token :: tokens) ↔
      EndsInOneByte token ∧ ((∃ bucket, BucketOf token bucket) → TokensSafe tokens) := by
  constructor
  · intro h
    refine ⟨h [] token tokens rfl (by simp), fun hbucket before t after htokens hbefore => ?_⟩
    exact h (token :: before) t after (by rw [htokens]; rfl)
      (List.forall_mem_cons.mpr ⟨hbucket, hbefore⟩)
  · rintro ⟨htoken, htokens⟩ before t after hsplit hbefore
    cases before with
    | nil =>
      obtain ⟨rfl, -⟩ := List.cons.inj hsplit
      exact htoken
    | cons t' before =>
      obtain ⟨rfl, hrest⟩ := List.cons.inj hsplit
      obtain ⟨hbucket, hbefore⟩ := List.forall_mem_cons.mp hbefore
      exact htokens hbucket before t after hrest hbefore

theorem exactBucket_wide {token : List Char} (h : ¬ EndsInOneByte token) :
    exactBucket token = none := by
  rcases List.eq_nil_or_concat token with rfl | ⟨count, unit, rfl⟩
  · rfl
  · rw [List.concat_eq_append, endsInOneByte_concat] at h
    have hnone : timeUnit [unit] = none := by
      by_contra hsome
      exact h (timeUnit_utf8Size hsome)
    simp [exactBucket, hnone]

theorem parseBuckets_wide {token : List Char} (h : ¬ EndsInOneByte token)
    (buckets : List PreserveBucket) (tokens : List (List Char)) :
    parseBuckets buckets (token :: tokens) = .error .panic := by
  rcases List.eq_nil_or_concat token with rfl | ⟨count, unit, rfl⟩
  · simp [EndsInOneByte] at h
  · rw [List.concat_eq_append] at h ⊢
    have hne : (count ++ [unit]).isEmpty = false := by simp
    simp only [parseBuckets, hne, Bool.false_eq_true, if_false,
      splitLastByte_wide (endsInOneByte_concat.not.mp h)]

theorem parseBuckets_cons {token : List Char} (hne : token ≠ []) (h : EndsInOneByte token)
    (buckets : List PreserveBucket) (tokens : List (List Char)) :
    parseBuckets buckets (token :: tokens) =
      match exactBucket token with
      | none => .ok none
      | some bucket => parseBuckets (buckets ++ [bucket]) tokens := by
  obtain ⟨count, unit, rfl⟩ := (List.eq_nil_or_concat token).resolve_left hne
  rw [List.concat_eq_append] at h ⊢
  have hne : (count ++ [unit]).isEmpty = false := by simp
  simp only [parseBuckets, hne, Bool.false_eq_true, if_false,
    splitLastByte_ascii (endsInOneByte_concat.mp h), exactBucket, List.getLast?_concat,
    List.dropLast_concat, Option.bind_some]
  cases timeUnit [unit] with
  | none => rfl
  | some u => cases preserveCount count <;> rfl

/-- The loop over the tokens finds the buckets, or panics where there are none. -/
theorem parseBuckets_cases {tokens : List (List Char)} (hne : ∀ t ∈ tokens, t ≠ [])
    (buckets : List PreserveBucket) :
    (TokensSafe tokens ∧
      parseBuckets buckets tokens = .ok ((tokens.mapM exactBucket).map (buckets ++ ·))) ∨
    (¬ TokensSafe tokens ∧ tokens.mapM exactBucket = none ∧
      parseBuckets buckets tokens = .error .panic) := by
  induction tokens generalizing buckets with
  | nil => exact Or.inl ⟨by simp [TokensSafe], by simp [parseBuckets]⟩
  | cons token tokens ih =>
    obtain ⟨htoken, htokens⟩ := List.forall_mem_cons.mp hne
    rw [tokensSafe_cons]
    by_cases hascii : EndsInOneByte token
    · rw [parseBuckets_cons htoken hascii]
      cases hbucket : exactBucket token with
      | none =>
        refine Or.inl ⟨⟨hascii, ?_⟩, by simp [hbucket]⟩
        rintro ⟨bucket, hof⟩
        simp [exactBucket_eq_some.mpr hof] at hbucket
      | some bucket =>
        have hof : ∃ bucket, BucketOf token bucket := ⟨bucket, exactBucket_eq_some.mp hbucket⟩
        rcases ih htokens (buckets ++ [bucket]) with ⟨hsafe, hparse⟩ | ⟨hbad, hnone, hpanic⟩
        · refine Or.inl ⟨⟨hascii, fun _ => hsafe⟩, ?_⟩
          simp only [hparse, List.mapM_cons, hbucket]
          cases tokens.mapM exactBucket <;> simp
        · refine Or.inr ⟨fun h => hbad (h.2 hof), ?_, hpanic⟩
          simp [hbucket, hnone]
    · refine Or.inr ⟨fun h => hascii h.1, ?_, parseBuckets_wide hascii _ _⟩
      simp [exactBucket_wide hascii]

/-- Parsing is exact, or it panics where there is no schedule. -/
theorem PreserveSchedule.parse_cases (s : String) :
    (ScheduleSafe s ∧ PreserveSchedule.parse s = .ok (exactSchedule s)) ∨
    (¬ ScheduleSafe s ∧ exactSchedule s = none ∧ PreserveSchedule.parse s = .error .panic) := by
  have hne : ∀ t ∈ words isWhitespace s.toList, t ≠ [] := fun t => wordsFrom_ne_nil
  rw [ScheduleSafe]
  by_cases hwords : words isWhitespace s.toList = []
  · refine Or.inl ⟨by simp [hwords, TokensSafe], ?_⟩
    simp [PreserveSchedule.parse, exactSchedule, hwords, trim_eq_nil.mpr hwords, pure, Except.pure]
  have hcs : (trim isWhitespace s.toList).isEmpty = false := by
    simpa [trim_eq_nil] using hwords
  rcases parseBuckets_cases hne [] with ⟨hsafe, hparse⟩ | ⟨hbad, hnone, hpanic⟩
  · refine Or.inl ⟨hsafe, ?_⟩
    simp only [PreserveSchedule.parse, exactSchedule, hcs, Bool.false_eq_true, if_false,
      words_trim, hparse, bind, Except.bind, hwords]
    cases hbuckets : (words isWhitespace s.toList).mapM exactBucket with
    | none => rfl
    | some buckets =>
      have hlen := (mapM_exactBucket_eq_some.mp hbuckets).length_eq
      have hne : buckets ≠ [] := by
        rintro rfl
        exact hwords (List.length_eq_zero_iff.mp hlen)
      simp [hne, pure, Except.pure]
  · refine Or.inr ⟨hbad, by simp [exactSchedule, hwords, hnone], ?_⟩
    simp [PreserveSchedule.parse, hcs, hpanic, bind, Except.bind]

/-- The string is parsed without a panic, and to the schedule it denotes or to none. -/
def ParsesSchedule (s : String) : Prop :=
  ∃ r, PreserveSchedule.parse s = .ok r ∧ ∀ schedule, r = some schedule ↔ ScheduleOf s schedule

theorem parsesSchedule_iff_exact {s : String} :
    ParsesSchedule s ↔ PreserveSchedule.parse s = .ok (exactSchedule s) :=
  exists_ok_iff_exact fun _ => exactSchedule_eq_some

theorem parsesSchedule_iff_safe {s : String} : ParsesSchedule s ↔ ScheduleSafe s := by
  rw [parsesSchedule_iff_exact]
  rcases PreserveSchedule.parse_cases s with ⟨hsafe, hparse⟩ | ⟨hbad, -, hpanic⟩
  · exact iff_of_true hparse hsafe
  · exact iff_of_false (by simp [hpanic]) hbad

end Bbkar
