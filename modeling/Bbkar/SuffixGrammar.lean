import Bbkar.Timestamp

/-!
# The documented form of a suffix

A suffix is a timestamp in one of three formats, and then perhaps an underscore with a
number. The parser only looks for the number: it refuses no timestamp but the empty one.
-/
namespace Bbkar

/-- All digits look alike. -/
def shapeOf (c : Char) : Char := if c.isDigit then '9' else c

/-- `YYYYMMDD`, `YYYYMMDDThhmm`, and `YYYYMMDDThhmmss` with an offset from UTC. -/
def stampShapes : List String :=
  ["99999999", "99999999T9999", "99999999T999999+9999", "99999999T999999-9999"]

def isStamp (cs : List Char) : Bool := stampShapes.contains (String.ofList (cs.map shapeOf))

/-- Nothing, or `_N` with at least one digit. -/
def isSeq : List Char → Bool
  | [] => true
  | c :: n => c == '_' && !n.isEmpty && n.all Char.isDigit

/-- `TIMESTAMP[_N]`, in the words of the documentation. -/
def Documented (s : String) : Prop :=
  ∃ stamp seq, s.toList = stamp ++ seq ∧ isStamp stamp = true ∧ isSeq seq = true

theorem isSeq_cons {c : Char} {n : List Char} :
    isSeq (c :: n) = true ↔ c = '_' ∧ n ≠ [] ∧ n.all Char.isDigit = true := by
  simp [isSeq, and_assoc]

theorem underscore_notMem_digits {n : List Char} (h : n.all Char.isDigit = true) : '_' ∉ n := by
  intro hmem
  exact absurd (List.all_eq_true.mp h _ hmem) (by decide)

/-- No timestamp has an underscore, so the number is what follows the only one. -/
theorem underscore_notMem_stamp {cs : List Char} (h : isStamp cs = true) : '_' ∉ cs := by
  intro hmem
  have hshape : '_' ∈ (String.ofList (cs.map shapeOf)).toList := by
    rw [String.toList_ofList]
    exact List.mem_map.mpr ⟨'_', hmem, by decide⟩
  have hall : ∀ s ∈ stampShapes, '_' ∉ s.toList := by decide
  exact hall _ (List.contains_iff_mem.mp h) hshape

theorem isStamp_ne_nil {cs : List Char} (h : isStamp cs = true) : cs ≠ [] := by
  rintro rfl
  exact absurd h (by decide)

/-! ## The cut of the parser -/

/-- The parts of a parsed suffix: every way to cut a number off the end is the way it was
done. -/
structure SplitsAtSeq (s : String) (t : Timestamp) : Prop where
  raw : t.raw = s
  append : s = t.timestamp ++ t.seq.getD ""
  seq : isSeq (t.seq.getD "").toList = true
  only : ∀ stamp seq, s.toList = stamp ++ seq → isSeq seq = true → seq ≠ [] →
    t.timestamp.toList = stamp

theorem parse_splitsAtSeq {s : String} {t : Timestamp} (h : Timestamp.parse s = some t) :
    SplitsAtSeq s t := by
  -- a number at the end is found behind the last underscore
  have hfound : ∀ stamp seq, s.toList = stamp ++ seq → isSeq seq = true → seq ≠ [] →
      ∃ n, seq = '_' :: n ∧ rsplitOnce '_' s.toList = some (stamp, n) ∧ n ≠ [] ∧
        n.all Char.isDigit = true := by
    intro stamp seq hs hseq hne
    obtain ⟨c, n, rfl⟩ := List.exists_cons_of_ne_nil hne
    obtain ⟨rfl, hn, hdigits⟩ := isSeq_cons.mp hseq
    exact ⟨n, rfl, rsplitOnce_eq_some.mpr ⟨hs, underscore_notMem_digits hdigits⟩, hn, hdigits⟩
  simp only [Timestamp.parse] at h
  split_ifs at h
  cases hr : rsplitOnce '_' s.toList with
  | none =>
    simp only [hr, Option.some.injEq] at h
    subst h
    refine ⟨rfl, by simp, by simp [isSeq], ?_⟩
    intro stamp seq hs hseq hne
    obtain ⟨n, -, hsplit, -⟩ := hfound stamp seq hs hseq hne
    simp [hr] at hsplit
  | some p =>
    obtain ⟨before, after⟩ := p
    obtain ⟨hs, -⟩ := rsplitOnce_eq_some.mp hr
    simp only [hr] at h
    split_ifs at h with hafter <;> simp only [Option.some.injEq] at h <;> subst h
    · refine ⟨rfl, ?_, ?_, ?_⟩
      · rw [← String.toList_inj]
        simpa using hs
      · simpa [isSeq] using hafter
      · intro stamp seq hs' hseq hne
        obtain ⟨n, -, hsplit, -⟩ := hfound stamp seq hs' hseq hne
        rw [hr] at hsplit
        simpa using congrArg Prod.fst (Option.some.inj hsplit)
    · refine ⟨rfl, by simp, by simp [isSeq], ?_⟩
      intro stamp seq hs' hseq hne
      obtain ⟨n, -, hsplit, hn, hdigits⟩ := hfound stamp seq hs' hseq hne
      rw [hr] at hsplit
      obtain ⟨-, rfl⟩ := Prod.mk.inj (Option.some.inj hsplit)
      exact absurd ⟨hn, hdigits⟩ hafter

/-- On a documented suffix the parser finds the two parts it was made of. -/
theorem parse_documented {s : String} {stamp seq : List Char} (hs : s.toList = stamp ++ seq)
    (hstamp : isStamp stamp = true) (hseq : isSeq seq = true) :
    ∃ t, Timestamp.parse s = some t ∧ t.timestamp.toList = stamp ∧
      (t.seq.getD "").toList = seq := by
  have hne : s ≠ "" := by
    rintro rfl
    exact isStamp_ne_nil hstamp (List.append_eq_nil_iff.mp hs.symm).1
  obtain ⟨t, ht⟩ := Timestamp.parse_isSome hne
  have hsplit := parse_splitsAtSeq ht
  have hparts : stamp ++ seq = t.timestamp.toList ++ (t.seq.getD "").toList := by
    rw [← hs, hsplit.append, String.toList_append]
  have htstamp : t.timestamp.toList = stamp := by
    by_cases hnil : seq = []
    · -- a number that was split off would leave an underscore in the timestamp
      rw [hnil, List.append_nil] at hparts
      cases hq : (t.seq.getD "").toList with
      | nil => simpa [hq] using hparts.symm
      | cons c n =>
        have hc := (isSeq_cons.mp (hq ▸ hsplit.seq)).1
        have hmem : '_' ∈ stamp := by simp [hparts, hq, hc]
        exact absurd hmem (underscore_notMem_stamp hstamp)
    · exact hsplit.only stamp seq hs hseq hnil
  exact ⟨t, ht, htstamp, (List.append_cancel_left (htstamp ▸ hparts)).symm⟩

theorem documented_iff {s : String} :
    Documented s ↔ ∃ t, Timestamp.parse s = some t ∧ isStamp t.timestamp.toList = true := by
  constructor
  · rintro ⟨stamp, seq, hs, hstamp, hseq⟩
    obtain ⟨t, ht, rfl, -⟩ := parse_documented hs hstamp hseq
    exact ⟨t, ht, hstamp⟩
  · rintro ⟨t, ht, hstamp⟩
    have hsplit := parse_splitsAtSeq ht
    exact ⟨_, _, by rw [hsplit.append, String.toList_append], hstamp, hsplit.seq⟩

instance (s : String) : Decidable (Documented s) :=
  decidable_of_iff ((Timestamp.parse s).any fun t => isStamp t.timestamp.toList)
    (by rw [documented_iff, Option.any_eq_true])

/-- The suffix is accepted when its form is the documented one, and only then. What is
accepted is cut in front of the number. -/
def AcceptsDocumented (s : String) : Prop :=
  ((Timestamp.parse s).isSome = true ↔ Documented s) ∧
    ∀ t, Timestamp.parse s = some t → SplitsAtSeq s t

/-- The cut is always right. The form is not looked at, so that every other suffix that is
not empty is accepted too. -/
theorem acceptsDocumented_iff {s : String} : AcceptsDocumented s ↔ s = "" ∨ Documented s := by
  constructor
  · rintro ⟨haccepts, -⟩
    by_cases hs : s = ""
    · exact Or.inl hs
    · obtain ⟨t, ht⟩ := Timestamp.parse_isSome hs
      exact Or.inr (haccepts.mp (by rw [ht]; rfl))
  · intro h
    refine ⟨⟨fun hsome => ?_, fun hdoc => ?_⟩, fun t ht => parse_splitsAtSeq ht⟩
    · rcases h with rfl | hdoc
      · simp [Timestamp.parse] at hsome
      · exact hdoc
    · obtain ⟨t, ht, -⟩ := documented_iff.mp hdoc
      rw [ht]
      rfl

end Bbkar
