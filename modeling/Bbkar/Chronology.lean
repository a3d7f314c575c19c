import Bbkar.SuffixGrammar
import Bbkar.Calendar
import Bbkar.Decimals
import Bbkar.RestoreTargets
import Mathlib.Order.Monotone.Basic

/-!
# Timestamps in time

Suffixes with a valid date and time, rendered in one of the three documented formats, stand
for moments: an instant and a number. Parsed timestamps are ordered as texts, and this is
the order in time for one pair of suffixes and not for another.
-/
namespace Bbkar
open Calendar Decimals KeySort

/-! ## Suffixes with valid fields -/

/-- An offset from UTC, written with `-` in the west. -/
structure UtcOffset where
  west : Bool
  hours : Fin 24
  minutes : Fin 60
  deriving DecidableEq

/-- The time of day in the short, the long and the long-iso format. -/
inductive Clock where
  | short
  | long (hour : Fin 24) (minute : Fin 60)
  | longIso (hour : Fin 24) (minute second : Fin 60) (offset : UtcOffset)
  deriving DecidableEq

inductive SuffixFormat where
  | short
  | long
  | longIso
  deriving DecidableEq

/-- The fields of a suffix. -/
structure BtrbkSuffix where
  date : Date
  year_lt : date.year < 10000
  clock : Clock
  seq : Option ℕ

namespace UtcOffset

def magnitude (o : UtcOffset) : ℕ := o.hours * 60 + o.minutes

def seconds (o : UtcOffset) : ℤ := if o.west then -(o.magnitude * 60 : ℤ) else o.magnitude * 60

def sign (o : UtcOffset) : Char := if o.west then '-' else '+'

def text (o : UtcOffset) : List Char :=
  o.sign :: (padDigits 2 o.hours ++ padDigits 2 o.minutes)

end UtcOffset

namespace Clock

def format : Clock → SuffixFormat
  | short => .short
  | long _ _ => .long
  | longIso _ _ _ _ => .longIso

def offset : Clock → Option UtcOffset
  | longIso _ _ _ o => some o
  | _ => none

/-- Seconds since midnight. -/
def seconds : Clock → ℕ
  | short => 0
  | long h m => (h * 60 + m) * 60
  | longIso h m s _ => (h * 60 + m) * 60 + s

/-- The local time, without the offset. -/
def text : Clock → List Char
  | short => []
  | long h m => 'T' :: (padDigits 2 h ++ padDigits 2 m)
  | longIso h m s _ => 'T' :: (padDigits 2 h ++ padDigits 2 m ++ padDigits 2 s)

def offsetText (c : Clock) : List Char := (c.offset.map UtcOffset.text).getD []

def offsetSeconds (c : Clock) : ℤ := (c.offset.map UtcOffset.seconds).getD 0

end Clock

def seqText : Option ℕ → List Char
  | none => []
  | some n => '_' :: Nat.toDigits 10 n

def dateText (d : Date) : List Char :=
  padDigits 4 d.year ++ (padDigits 2 d.month ++ padDigits 2 d.day)

namespace BtrbkSuffix

def text (x : BtrbkSuffix) : List Char :=
  dateText x.date ++ (x.clock.text ++ (x.clock.offsetText ++ seqText x.seq))

def render (x : BtrbkSuffix) : String := String.ofList x.text

/-- The local time, in seconds. -/
def localSeconds (x : BtrbkSuffix) : ℕ := x.date.dayNumber * 86400 + x.clock.seconds

def instant (x : BtrbkSuffix) : ℤ := x.localSeconds - x.clock.offsetSeconds

/-- An absent number counts as zero. -/
def number (x : BtrbkSuffix) : ℕ := x.seq.getD 0

/-- The place of a snapshot in time. -/
def moment (x : BtrbkSuffix) : ℤ ×ₗ ℕ := toLex (x.instant, x.number)

theorem dateText_length (d : Date) : (dateText d).length = 8 := by
  simp [dateText]

theorem render_ne_empty (x : BtrbkSuffix) : x.render ≠ "" := by
  intro h
  have hlen := congrArg (fun s => s.toList.length) h
  simp [render, text, dateText_length] at hlen

/-- What the parser makes of the suffix. -/
def timestamp (x : BtrbkSuffix) : Timestamp :=
  (Timestamp.parse x.render).get (Option.isSome_iff_exists.mpr
    (Timestamp.parse_isSome x.render_ne_empty))

theorem parse_render (x : BtrbkSuffix) : Timestamp.parse x.render = some x.timestamp := by
  simp [timestamp]

/-- The order of the code agrees with the order in time. -/
def Agrees (a b : BtrbkSuffix) : Prop := cmp a.timestamp b.timestamp = cmp a.moment b.moment

end BtrbkSuffix

/-! ## Comparing the parts -/

theorem Calendar.Date.month_lt_100 (d : Date) : d.month < 100 := by
  have := d.month_le
  omega

theorem Calendar.Date.day_lt_100 (d : Date) : d.day < 100 := by
  have := d.day_le_31
  omega

theorem lexCmp_dateText {d e : Date} (hd : d.year < 10000) (he : e.year < 10000) :
    lexCmp (dateText d) (dateText e) = cmp d.dayNumber e.dayNumber := by
  have hparts : lexCmp (dateText d) (dateText e) =
      (cmp d.year e.year).then ((cmp d.month e.month).then (cmp d.day e.day)) := by
    rw [dateText, dateText, lexCmp_append (by simp), lexCmp_append (by simp),
      lexCmp_padDigits (by omega) (by omega),
      lexCmp_padDigits d.month_lt_100 e.month_lt_100, lexCmp_padDigits d.day_lt_100 e.day_lt_100]
  have hlt : ∀ d e : Date,
      d.dayNumber < e.dayNumber ↔ d.year < e.year ∨ d.year = e.year ∧
        (d.month < e.month ∨ d.month = e.month ∧ d.day < e.day) :=
    fun d e => Date.dayNumber_strictMono.lt_iff_lt.trans Date.lt_iff
  rw [hparts]
  refine ordering_ext ?_ ?_
  · simp only [Ordering.then_eq_lt, cmp_eq_lt_iff, cmp_eq_eq_iff, hlt]
  · simp only [Ordering.then_eq_gt, cmp_eq_gt_iff, cmp_eq_eq_iff, hlt, eq_comm (a := d.year),
      eq_comm (a := d.month)]

/-- Two digits for each of two fields below 100, the second one below 60. -/
theorem lexCmp_fields {h h' m m' : ℕ} (hh : h < 100) (hh' : h' < 100) (hm : m < 60)
    (hm' : m' < 60) :
    lexCmp (padDigits 2 h ++ padDigits 2 m) (padDigits 2 h' ++ padDigits 2 m') =
      cmp (h * 60 + m) (h' * 60 + m') := by
  rw [lexCmp_append (by simp), lexCmp_padDigits hh hh',
    lexCmp_padDigits (by omega) (by omega), cmp_mul_add _ _ hm hm']

namespace Clock

theorem seconds_lt (c : Clock) : c.seconds < 86400 := by
  cases c <;> simp only [seconds] <;> omega

theorem text_length {c c' : Clock} (h : c.format = c'.format) :
    c.text.length = c'.text.length := by
  cases c <;> cases c' <;> simp_all [format, text]

theorem lexCmp_text {c c' : Clock} (h : c.format = c'.format) :
    lexCmp c.text c'.text = cmp c.seconds c'.seconds := by
  cases c with
  | short =>
    cases c' with
    | short => rfl
    | long => cases h
    | longIso => cases h
  | long hour minute =>
    cases c' with
    | short => cases h
    | long hour' minute' =>
      have hzero := cmp_mul_add (k := 60) (r := 0) (s := 0) (hour * 60 + minute)
        (hour' * 60 + minute') (by omega) (by omega)
      simp only [Nat.add_zero, cmp_self_eq_eq, Ordering.then_eq] at hzero
      simp only [text, lexCmp, cmp_self_eq_eq, Ordering.then, seconds]
      rw [lexCmp_fields (by omega) (by omega) (by omega) (by omega), hzero]
    | longIso => cases h
  | longIso hour minute second o =>
    cases c' with
    | short => cases h
    | long => cases h
    | longIso hour' minute' second' o' =>
      simp only [text, lexCmp, cmp_self_eq_eq, Ordering.then, seconds]
      rw [lexCmp_append (by simp), lexCmp_fields (by omega) (by omega) (by omega) (by omega),
        lexCmp_padDigits (by omega) (by omega), ← cmp_mul_add _ _ second.isLt second'.isLt]

end Clock

theorem UtcOffset.lexCmp_text (o p : UtcOffset) :
    lexCmp o.text p.text = (cmp o.sign p.sign).then (cmp o.magnitude p.magnitude) := by
  rw [text, text, lexCmp, lexCmp_fields (by omega) (by omega) (by omega) (by omega)]
  rfl

namespace BtrbkSuffix

variable {a b : BtrbkSuffix}

theorem cmp_timestamp (a b : BtrbkSuffix) :
    cmp a.timestamp b.timestamp = lexCmp a.text b.text := by
  have hparsed : ∀ x : BtrbkSuffix, x.timestamp.Parsed := fun x =>
    Timestamp.parsed_of_parse x.parse_render
  have hraw : ∀ x : BtrbkSuffix, x.timestamp.raw.toList = x.text := fun x => by
    rw [Timestamp.parse_raw x.parse_render, render, String.toList_ofList]
  refine ordering_ext ?_ ?_
  · rw [cmp_eq_lt_iff, (hparsed a).lt_iff (hparsed b), String.lt_iff_toList_lt, hraw, hraw,
      lexCmp_eq_lt]
  · rw [cmp_eq_gt_iff, (hparsed b).lt_iff (hparsed a), String.lt_iff_toList_lt, hraw, hraw,
      lexCmp_eq_gt]

theorem cmp_localSeconds (a b : BtrbkSuffix) :
    cmp a.localSeconds b.localSeconds =
      (cmp a.date.dayNumber b.date.dayNumber).then (cmp a.clock.seconds b.clock.seconds) :=
  cmp_mul_add _ _ a.clock.seconds_lt b.clock.seconds_lt

theorem offsetText_length (h : a.clock.format = b.clock.format) :
    a.clock.offsetText.length = b.clock.offsetText.length := by
  cases ha : a.clock <;> cases hb : b.clock <;>
    simp_all [Clock.format, Clock.offsetText, Clock.offset, UtcOffset.text]

/-- In one format the local times are compared first, then the offsets, then the numbers. -/
theorem lexCmp_text (h : a.clock.format = b.clock.format) :
    lexCmp a.text b.text = (cmp a.localSeconds b.localSeconds).then
      ((lexCmp a.clock.offsetText b.clock.offsetText).then
        (lexCmp (seqText a.seq) (seqText b.seq))) := by
  rw [text, text, lexCmp_append (by rw [dateText_length, dateText_length]),
    lexCmp_append (Clock.text_length h), lexCmp_append (offsetText_length h),
    lexCmp_dateText a.year_lt b.year_lt, Clock.lexCmp_text h, cmp_localSeconds,
    Ordering.then_assoc]

theorem cmp_moment (a b : BtrbkSuffix) :
    cmp a.moment b.moment = (cmp a.instant b.instant).then (cmp a.number b.number) := by
  refine ordering_ext ?_ ?_
  · simp only [cmp_eq_lt_iff, Ordering.then_eq_lt, cmp_eq_eq_iff, moment,
      Prod.Lex.toLex_lt_toLex]
  · simp only [cmp_eq_gt_iff, Ordering.then_eq_gt, cmp_eq_eq_iff, moment,
      Prod.Lex.toLex_lt_toLex, eq_comm (a := a.instant)]

end BtrbkSuffix

/-! ## When the orders agree -/

/-- The texts of the numbers compare like the numbers. The smaller one, with zeros behind it
up to the digits of the larger one, is at most the larger one. -/
def SeqInOrder : Option ℕ → Option ℕ → Prop
  | none, none => True
  | none, some n => n ≠ 0
  | some m, none => m ≠ 0
  | some m, some n => (m < n → m * 10 ^ (digitCount n - digitCount m) ≤ n) ∧
    (n < m → n * 10 ^ (digitCount m - digitCount n) ≤ m)

theorem lexCmp_seqText_iff {m n : Option ℕ} :
    lexCmp (seqText m) (seqText n) = cmp (m.getD 0) (n.getD 0) ↔ SeqInOrder m n := by
  cases m with
  | none =>
    cases n with
    | none => simp [seqText, SeqInOrder, lexCmp, cmp_self_eq_eq]
    | some n =>
      simp only [seqText, lexCmp, Option.getD_none, Option.getD_some, SeqInOrder]
      rw [eq_comm, cmp_eq_lt_iff, Nat.pos_iff_ne_zero]
  | some m =>
    cases n with
    | none =>
      simp only [seqText, lexCmp, Option.getD_none, Option.getD_some, SeqInOrder]
      rw [eq_comm, cmp_eq_gt_iff, Nat.pos_iff_ne_zero]
    | some n =>
      simp only [seqText, lexCmp, cmp_self_eq_eq, Ordering.then, Option.getD_some, SeqInOrder]
      rcases lt_trichotomy m n with h | rfl | h
      · rw [h.cmp_eq_lt, lexCmp_toDigits_eq_lt h]
        simp [h, h.not_gt]
      · simp [cmp_self_eq_eq, lexCmp_eq_eq]
      · rw [h.cmp_eq_gt, lexCmp_eq_gt, ← lexCmp_eq_lt, lexCmp_toDigits_eq_lt h]
        simp [h, h.not_gt]

namespace UtcOffset

theorem ext_of_magnitude {o p : UtcOffset} (hw : o.west = p.west)
    (hm : o.magnitude = p.magnitude) : o = p := by
  obtain ⟨w, h, m⟩ := o
  obtain ⟨w', h', m'⟩ := p
  simp only [magnitude] at hm
  have hh : h = h' := Fin.ext (by omega)
  have hm : m = m' := Fin.ext (by omega)
  rw [hh, hm, show w = w' from hw]

/-- `+` comes before `-`. -/
theorem lexCmp_text_cases (o p : UtcOffset) :
    lexCmp o.text p.text =
      if o.west = p.west then cmp o.magnitude p.magnitude
      else if p.west = true then .lt else .gt := by
  have hsign : cmp '+' '-' = .lt ∧ cmp '-' '+' = .gt ∧ cmp '+' '+' = .eq ∧ cmp '-' '-' = .eq := by
    decide
  rw [lexCmp_text, sign, sign]
  cases o.west <;> cases p.west <;> simp [hsign, Ordering.then]

theorem lexCmp_text_ne_eq {o p : UtcOffset} (h : o ≠ p) : lexCmp o.text p.text ≠ .eq := by
  rw [lexCmp_text_cases]
  split_ifs with hw
  · rw [ne_eq, cmp_eq_eq_iff]
    exact fun hm => h (ext_of_magnitude hw hm)
  · simp
  · simp

theorem seconds_eq (o : UtcOffset) :
    o.west = true ∧ o.seconds = -(o.magnitude * 60 : ℤ) ∨
      o.west = false ∧ o.seconds = o.magnitude * 60 := by
  cases h : o.west <;> simp [seconds, h]

end UtcOffset

namespace BtrbkSuffix

/-- The offsets differ by less than the local times, or by as much with a smaller number. -/
def EarlierThan (a b : BtrbkSuffix) : Prop :=
  b.clock.offsetSeconds - a.clock.offsetSeconds < b.localSeconds - a.localSeconds ∨
    b.clock.offsetSeconds - a.clock.offsetSeconds = b.localSeconds - a.localSeconds ∧
      a.number < b.number

/-- At one local time: not both in the east, and `+0000` needs the smaller number before
`-0000`. -/
def OffsetsInOrder (a b : BtrbkSuffix) (o p : UtcOffset) : Prop :=
  (o.west = true ∨ p.west = true) ∧
    (o.magnitude = 0 → p.magnitude = 0 →
      (p.west = true → a.number < b.number) ∧ (o.west = true → b.number < a.number))

/-- When two suffixes of one format are ordered like their moments. -/
structure InOrder (a b : BtrbkSuffix) : Prop where
  earlier : a.localSeconds < b.localSeconds → a.EarlierThan b
  later : b.localSeconds < a.localSeconds → b.EarlierThan a
  number : a.localSeconds = b.localSeconds → a.clock.offset = b.clock.offset →
    SeqInOrder a.seq b.seq
  offset : a.localSeconds = b.localSeconds → ∀ o p, a.clock.offset = some o →
    b.clock.offset = some p → o ≠ p → OffsetsInOrder a b o p

variable {a b : BtrbkSuffix}

theorem earlierThan_iff : a.EarlierThan b ↔ a.moment < b.moment := by
  rw [moment, moment, Prod.Lex.toLex_lt_toLex, EarlierThan]
  simp only [instant]
  refine or_congr (by omega) (and_congr_left' (by omega))

/-- With one local time and different offsets only the offsets decide. -/
theorem agrees_iff_offsets {o p : UtcOffset} (hlocal : a.localSeconds = b.localSeconds)
    (ho : a.clock.offset = some o) (hp : b.clock.offset = some p) (hne : o ≠ p)
    (h : cmp a.timestamp b.timestamp = lexCmp o.text p.text) :
    a.Agrees b ↔ OffsetsInOrder a b o p := by
  have hinstant : ∀ x : BtrbkSuffix, ∀ q, x.clock.offset = some q →
      x.instant = x.localSeconds - q.seconds := by
    intro x q hq
    rw [instant, Clock.offsetSeconds, hq, Option.map_some, Option.getD_some]
  have hia := hinstant a o ho
  have hib := hinstant b p hp
  have hmag : o.west = p.west → o.magnitude ≠ p.magnitude := fun hw hm =>
    hne (UtcOffset.ext_of_magnitude hw hm)
  rw [Agrees, h, cmp_moment, UtcOffset.lexCmp_text_cases, OffsetsInOrder]
  rcases o.seconds_eq with ⟨hw, hs⟩ | ⟨hw, hs⟩ <;>
    rcases p.seconds_eq with ⟨hw', hs'⟩ | ⟨hw', hs'⟩ <;>
    simp only [hw, hw', Bool.false_eq_true, reduceCtorEq, or_false, or_true, or_self,
      true_and, if_true, if_false, forall_true_left, false_implies, and_true] at hmag ⊢
  · -- both in the west: the larger offset comes later in both orders
    refine iff_of_true ?_ fun hom hpm => absurd (hom.trans hpm.symm) hmag
    rcases lt_or_gt_of_ne hmag with hm | hm
    · rw [hm.cmp_eq_lt, (show a.instant < b.instant by omega).cmp_eq_lt]
      rfl
    · rw [hm.cmp_eq_gt, (show b.instant < a.instant by omega).cmp_eq_gt]
      rfl
  · by_cases hzero : o.magnitude = 0 ∧ p.magnitude = 0
    · rw [(show a.instant = b.instant by omega).cmp_eq_eq]
      simp only [Ordering.then, hzero, forall_true_left]
      rw [eq_comm, cmp_eq_gt_iff]
    · rw [(show b.instant < a.instant by omega).cmp_eq_gt]
      exact iff_of_true rfl fun hom hpm => absurd ⟨hom, hpm⟩ hzero
  · by_cases hzero : o.magnitude = 0 ∧ p.magnitude = 0
    · rw [(show a.instant = b.instant by omega).cmp_eq_eq]
      simp only [Ordering.then, hzero, forall_true_left]
      rw [eq_comm, cmp_eq_lt_iff]
    · rw [(show a.instant < b.instant by omega).cmp_eq_lt]
      exact iff_of_true rfl fun hom hpm => absurd ⟨hom, hpm⟩ hzero
  · -- both in the east: the larger offset comes earlier in time but later as a text
    refine iff_of_false ?_ (by simp)
    rcases lt_or_gt_of_ne hmag with hm | hm
    · rw [hm.cmp_eq_lt, (show b.instant < a.instant by omega).cmp_eq_gt]
      simp [Ordering.then]
    · rw [hm.cmp_eq_gt, (show a.instant < b.instant by omega).cmp_eq_lt]
      simp [Ordering.then]

theorem InOrder.of_earlier (h : a.localSeconds < b.localSeconds) (he : a.EarlierThan b) :
    a.InOrder b :=
  ⟨fun _ => he, fun hgt => absurd hgt h.not_gt, fun heq => absurd heq h.ne,
    fun heq => absurd heq h.ne⟩

theorem InOrder.of_later (h : b.localSeconds < a.localSeconds) (he : b.EarlierThan a) :
    a.InOrder b :=
  ⟨fun hlt => absurd hlt h.not_gt, fun _ => he, fun heq => absurd heq h.ne',
    fun heq => absurd heq h.ne'⟩

theorem InOrder.of_number (h : a.localSeconds = b.localSeconds)
    (hoffset : a.clock.offset = b.clock.offset) (hseq : SeqInOrder a.seq b.seq) :
    a.InOrder b := by
  refine ⟨fun hlt => absurd h hlt.ne, fun hgt => absurd h hgt.ne', fun _ _ => hseq, ?_⟩
  intro _ o p ho hp hne
  rw [ho, hp, Option.some.injEq] at hoffset
  exact absurd hoffset hne

theorem InOrder.of_offsets {o p : UtcOffset} (h : a.localSeconds = b.localSeconds)
    (ho : a.clock.offset = some o) (hp : b.clock.offset = some p) (hne : o ≠ p)
    (hin : OffsetsInOrder a b o p) : a.InOrder b := by
  refine ⟨fun hlt => absurd h hlt.ne, fun hgt => absurd h hgt.ne', ?_, ?_⟩
  · intro _ hoffset
    rw [ho, hp, Option.some.injEq] at hoffset
    exact absurd hoffset hne
  · intro _ o' p' ho' hp' _
    obtain rfl := Option.some.inj (ho.symm.trans ho')
    obtain rfl := Option.some.inj (hp.symm.trans hp')
    exact hin

theorem agrees_iff (h : a.clock.format = b.clock.format) : a.Agrees b ↔ a.InOrder b := by
  rcases lt_trichotomy a.localSeconds b.localSeconds with hlt | heq | hgt
  · rw [Agrees, cmp_timestamp, lexCmp_text h, hlt.cmp_eq_lt]
    have hearlier : Ordering.lt = cmp a.moment b.moment ↔ a.EarlierThan b := by
      rw [eq_comm, cmp_eq_lt_iff, earlierThan_iff]
    exact hearlier.trans ⟨.of_earlier hlt, fun hin => hin.earlier hlt⟩
  · have htext : cmp a.timestamp b.timestamp =
        (lexCmp a.clock.offsetText b.clock.offsetText).then
          (lexCmp (seqText a.seq) (seqText b.seq)) := by
      rw [cmp_timestamp, lexCmp_text h, heq, cmp_self_eq_eq]
      rfl
    by_cases hoffset : a.clock.offset = b.clock.offset
    · have hinstant : a.instant = b.instant := by
        rw [instant, instant, heq, Clock.offsetSeconds, Clock.offsetSeconds, hoffset]
      rw [Agrees, htext, cmp_moment, hinstant, Clock.offsetText, Clock.offsetText, hoffset,
        lexCmp_eq_eq.mpr rfl, cmp_self_eq_eq]
      exact (lexCmp_seqText_iff (m := a.seq)).trans
        ⟨.of_number heq hoffset, fun hin => hin.number heq hoffset⟩
    · obtain ⟨o, p, ho, hp⟩ : ∃ o p, a.clock.offset = some o ∧ b.clock.offset = some p := by
        cases ha : a.clock <;> cases hb : b.clock <;>
          simp_all [Clock.format, Clock.offset]
      have hne : o ≠ p := by
        rintro rfl
        exact hoffset (ho.trans hp.symm)
      have hcmp : cmp a.timestamp b.timestamp = lexCmp o.text p.text := by
        rw [htext, Clock.offsetText, Clock.offsetText, ho, hp, Option.map_some, Option.map_some,
          Option.getD_some, Option.getD_some]
        cases hc : lexCmp o.text p.text with
        | eq => exact absurd hc (UtcOffset.lexCmp_text_ne_eq hne)
        | lt => rfl
        | gt => rfl
      exact (agrees_iff_offsets heq ho hp hne hcmp).trans
        ⟨.of_offsets heq ho hp hne, fun hin => hin.offset heq o p ho hp hne⟩
  · rw [Agrees, cmp_timestamp, lexCmp_text h, hgt.cmp_eq_gt]
    have hlater : Ordering.gt = cmp a.moment b.moment ↔ b.EarlierThan a := by
      rw [eq_comm, cmp_eq_gt_iff, earlierThan_iff]
    exact hlater.trans ⟨.of_later hgt, fun hin => hin.later hgt⟩

end BtrbkSuffix

/-! ## The newest snapshot -/

/-- The last of a sorted list is greatest. -/
theorem exists_getLast?_of_sorted {ts : List Timestamp} (hne : ts ≠ [])
    (hs : ts.Pairwise (· ≤ ·)) : ∃ t ∈ ts, ts.getLast? = some t ∧ ∀ u ∈ ts, u ≤ t := by
  obtain ⟨init, t, rfl⟩ := (List.eq_nil_or_concat' ts).resolve_left hne
  refine ⟨t, by simp, by simp, fun u hu => ?_⟩
  rcases List.mem_append.mp hu with hu | hu
  · exact (List.pairwise_append.mp hs).2.2 u hu t (by simp)
  · exact (List.mem_singleton.mp hu).le

/-- Suffixes of one format, each two of them in order. -/
def AllInOrder (xs : List BtrbkSuffix) : Prop :=
  ∀ a ∈ xs, ∀ b ∈ xs, a.clock.format = b.clock.format ∧ a.InOrder b

/-- The greatest timestamp is then that of the latest moment. -/
theorem AllInOrder.moment_le {xs : List BtrbkSuffix} (h : AllInOrder xs) {a b : BtrbkSuffix}
    (ha : a ∈ xs) (hb : b ∈ xs) (hle : a.timestamp ≤ b.timestamp) : a.moment ≤ b.moment := by
  obtain ⟨hformat, horder⟩ := h a ha b hb
  exact (le_iff_le_of_cmp_eq_cmp ((BtrbkSuffix.agrees_iff hformat).mpr horder)).mp hle

theorem AllInOrder.series_newest {xs : List BtrbkSuffix} (h : AllInOrder xs) (hne : xs ≠ [])
    (name : String) : ∃ x ∈ xs,
      (Series.new name (xs.map BtrbkSuffix.timestamp)).snapshots.getLast? = some x.timestamp ∧
        ∀ y ∈ xs, y.moment ≤ x.moment := by
  have hsnaps : ∀ t, t ∈ (Series.new name (xs.map BtrbkSuffix.timestamp)).snapshots ↔
      ∃ x ∈ xs, x.timestamp = t := fun t => by
    simp [Series.new]
  obtain ⟨x, hx⟩ := List.exists_mem_of_ne_nil xs hne
  have hnonempty := List.ne_nil_of_mem ((hsnaps x.timestamp).mpr ⟨x, hx, rfl⟩)
  obtain ⟨t, ht, hlast, hmax⟩ := exists_getLast?_of_sorted hnonempty (Series.sorted _)
  obtain ⟨x, hx, rfl⟩ := (hsnaps t).mp ht
  exact ⟨x, hx, hlast, fun y hy =>
    h.moment_le hy hx (hmax _ ((hsnaps _).mpr ⟨y, hy, rfl⟩))⟩

theorem AllInOrder.target_latest {xs : List BtrbkSuffix} (h : AllInOrder xs) (hne : xs ≠ [])
    {archives : List VolumeArchive}
    (harchives : archives.map (·.timestamp) = xs.map BtrbkSuffix.timestamp) : ∃ x ∈ xs,
      resolveTargets archives [] none none = .ok [x.timestamp] ∧
        ∀ y ∈ xs, y.moment ≤ x.moment := by
  rcases newestArchive_cases archives with ⟨-, rfl⟩ | ⟨a, ha, hsome, hmax⟩
  · exact absurd (by simpa using harchives.symm) hne
  · have hmem : ∀ {t}, t ∈ archives.map (·.timestamp) ↔ t ∈ xs.map BtrbkSuffix.timestamp := by
      intro t
      rw [harchives]
    obtain ⟨x, hx, hxa⟩ := List.mem_map.mp (hmem.mp (List.mem_map_of_mem ha))
    refine ⟨x, hx, by simp [resolveTargets, hsome, hxa], fun y hy => h.moment_le hy hx ?_⟩
    obtain ⟨b, hb, hby⟩ := List.mem_map.mp (hmem.mpr (List.mem_map_of_mem hy))
    rw [← hby, hxa]
    exact hmax b hb

/-- Exactly when timestamps are ordered in time, and what follows for lists of them. -/
theorem timestamp_chronological_iff (a b : BtrbkSuffix)
    (hformat : a.clock.format = b.clock.format) :
    (a.Agrees b ↔ a.InOrder b) ∧ ∀ xs : List BtrbkSuffix, AllInOrder xs → xs ≠ [] →
      (∀ name, ∃ x ∈ xs, (Series.new name (xs.map BtrbkSuffix.timestamp)).snapshots.getLast? =
        some x.timestamp ∧ ∀ y ∈ xs, y.moment ≤ x.moment) ∧
      ∀ archives : List VolumeArchive,
        archives.map (·.timestamp) = xs.map BtrbkSuffix.timestamp → ∃ x ∈ xs,
          resolveTargets archives [] none none = .ok [x.timestamp] ∧
            ∀ y ∈ xs, y.moment ≤ x.moment :=
  ⟨BtrbkSuffix.agrees_iff hformat, fun _ h hne =>
    ⟨h.series_newest hne, fun _ harchives => h.target_latest hne harchives⟩⟩

def newYear : Date := ⟨2023, 1, 1, by decide, by decide, by decide, by decide⟩

/-- The suffix `20230101`, perhaps with a number. -/
def newYearShort (seq : Option ℕ) : BtrbkSuffix := ⟨newYear, by decide, .short, seq⟩

theorem newYearShort_inOrder {m n : Option ℕ} (h : SeqInOrder m n) :
    (newYearShort m).InOrder (newYearShort n) :=
  .of_number (by simp only [newYearShort, BtrbkSuffix.localSeconds]) rfl h

/-- A full hour of a day, with an offset of whole hours. -/
def fullHour (date : Date) (h : date.year < 10000) (hour : Fin 24) (west : Bool)
    (offset : Fin 24) : BtrbkSuffix :=
  ⟨date, h, .longIso hour 0 0 ⟨west, offset, 0⟩, none⟩

/-- On every day, noon two hours east of UTC is before eleven in the morning by UTC. -/
theorem fullHour_not_agrees (date : Date) (h : date.year < 10000) :
    ¬ (fullHour date h 12 false 2).Agrees (fullHour date h 11 false 0) := by
  intro hagrees
  have hin := (@BtrbkSuffix.agrees_iff (fullHour date h 12 false 2) (fullHour date h 11 false 0)
    rfl).mp hagrees
  have hclocks : (fullHour date h 12 false 2).localSeconds =
      (fullHour date h 11 false 0).localSeconds + 3600 := by
    simp [fullHour, BtrbkSuffix.localSeconds, Clock.seconds]
  have hoffsets : (fullHour date h 12 false 2).clock.offsetSeconds = 7200 ∧
      (fullHour date h 11 false 0).clock.offsetSeconds = 0 := ⟨rfl, rfl⟩
  have hlate := hin.later (by omega)
  rw [BtrbkSuffix.EarlierThan, hoffsets.1, hoffsets.2, hclocks] at hlate
  omega

/-- Numbers with different numbers of digits, an explicit zero, and offsets. -/
theorem timestamp_not_chronological :
    (¬ (newYearShort (some 2)).Agrees (newYearShort (some 10)) ∧
      ¬ (newYearShort none).Agrees (newYearShort (some 0)) ∧
      ¬ (fullHour newYear (by decide) 12 false 2).Agrees
        (fullHour newYear (by decide) 11 false 0)) ∧
    (newYearShort (some 2)).render = "20230101_2" ∧
    (fullHour newYear (by decide) 12 false 2).render = "20230101T120000+0200" ∧
    (Series.new "root" ([newYearShort (some 2), newYearShort (some 10)].map
      BtrbkSuffix.timestamp)).snapshots.getLast? = some (newYearShort (some 2)).timestamp := by
  have hshort : ∀ m n, (newYearShort m).localSeconds = (newYearShort n).localSeconds := by
    intro m n
    simp only [newYearShort, BtrbkSuffix.localSeconds]
  refine ⟨⟨fun h => ?_, fun h => ?_, fullHour_not_agrees newYear _⟩, by decide +kernel⟩
  · have hin := (@BtrbkSuffix.agrees_iff (newYearShort (some 2)) (newYearShort (some 10)) rfl).mp h
    exact absurd ((hin.number (hshort _ _) rfl).1 (by decide)) (by decide)
  · have hin := (@BtrbkSuffix.agrees_iff (newYearShort none) (newYearShort (some 0)) rfl).mp h
    exact hin.number (hshort _ _) rfl rfl

theorem timestamp_chronological_iff_newYear :
    ((newYearShort none).Agrees (newYearShort (some 1)) ↔
      (newYearShort none).InOrder (newYearShort (some 1))) ∧
    ∃ x ∈ [newYearShort (some 1), newYearShort none],
      (Series.new "root" ([newYearShort (some 1), newYearShort none].map
        BtrbkSuffix.timestamp)).snapshots.getLast? = some x.timestamp ∧
        ∀ y ∈ [newYearShort (some 1), newYearShort none], y.moment ≤ x.moment := by
  have hall : AllInOrder [newYearShort (some 1), newYearShort none] := by
    intro a ha b hb
    simp only [List.mem_cons, List.not_mem_nil, or_false] at ha hb
    rcases ha with rfl | rfl <;> rcases hb with rfl | rfl <;>
      exact ⟨rfl, newYearShort_inOrder (by simp [SeqInOrder])⟩
  have hiff := timestamp_chronological_iff (newYearShort none) (newYearShort (some 1)) rfl
  exact ⟨hiff.1, (hiff.2 _ hall (by simp)).1 "root"⟩

end Bbkar
