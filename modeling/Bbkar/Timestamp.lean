import Bbkar.KeySort
import Mathlib.Data.String.Basic
import Mathlib.Data.Prod.Lex
import Mathlib.Order.WithBot

/-!
# Snapshot timestamps and source series

A timestamp keeps the raw suffix of a snapshot name next to the two parts it splits into.
The derived order of the source compares the three fields in turn, an absent sequence
number first. Rust orders strings by bytes, which for UTF-8 is the order by code points.
-/
namespace Bbkar
open KeySort

structure Timestamp where
  raw : String
  timestamp : String
  seq : Option String
  deriving DecidableEq, Repr

/-- The text around the last occurrence of a character, as `rfind` and `rsplit_once` cut it. -/
def rsplitOnce (c : Char) : List Char → Option (List Char × List Char)
  | [] => none
  | x :: xs =>
    match rsplitOnce c xs with
    | some (before, after) => some (x :: before, after)
    | none => if x = c then some ([], xs) else none

theorem rsplitOnce_none {c : Char} {xs : List Char} : rsplitOnce c xs = none ↔ c ∉ xs := by
  induction xs with
  | nil => simp [rsplitOnce]
  | cons x xs ih =>
    simp only [rsplitOnce]
    cases hr : rsplitOnce c xs with
    | some p =>
      have hmem : c ∈ xs := by
        by_contra hn
        simp [ih.mpr hn] at hr
      simp [hmem]
    | none =>
      have hmem := ih.mp hr
      by_cases hx : x = c
      · simp [hx]
      · simp [hx, hmem, Ne.symm hx]

/-- Nothing after the cut contains the character, and there is only one such cut. -/
theorem rsplitOnce_eq_some {c : Char} {xs before after : List Char} :
    rsplitOnce c xs = some (before, after) ↔ xs = before ++ c :: after ∧ c ∉ after := by
  induction xs generalizing before after with
  | nil => simp [rsplitOnce]
  | cons x xs ih =>
    simp only [rsplitOnce]
    cases hr : rsplitOnce c xs with
    | some p =>
      obtain ⟨b, a⟩ := p
      obtain ⟨rfl, ha⟩ := ih.mp hr
      cases before with
      | nil =>
        constructor
        · simp
        · rintro ⟨h, hafter⟩
          obtain ⟨-, rfl⟩ := List.cons.inj h
          simp at hafter
      | cons y before =>
        have hcut := @ih before after
        simp only [hr, Option.some.injEq, Prod.mk.injEq] at hcut
        simp [← hcut, and_assoc]
    | none =>
      have hmem := rsplitOnce_none.mp hr
      cases before with
      | nil =>
        by_cases hx : x = c
        · subst hx
          constructor
          · intro h
            simp only [if_true, Option.some.injEq, Prod.mk.injEq, true_and] at h
            subst h
            exact ⟨rfl, hmem⟩
          · rintro ⟨h, -⟩
            simpa using h
        · simp [hx]
      | cons y before =>
        have hne : xs ≠ before ++ c :: after := by
          rintro rfl
          simp at hmem
        split_ifs <;> simp [hne]

theorem rsplitOnce_some {c : Char} {xs before after : List Char}
    (h : rsplitOnce c xs = some (before, after)) : xs = before ++ c :: after :=
  (rsplitOnce_eq_some.mp h).1

namespace Timestamp

/-- Only an empty suffix is refused. A trailing `_N` is split off when `N` is all digits. -/
def parse (suffix : String) : Option Timestamp :=
  if suffix = "" then none
  else
    match rsplitOnce '_' suffix.toList with
    | some (before, after) =>
      if after ≠ [] ∧ after.all Char.isDigit = true then
        some ⟨suffix, String.ofList before, some (String.ofList ('_' :: after))⟩
      else some ⟨suffix, suffix, none⟩
    | none => some ⟨suffix, suffix, none⟩

/-- A suffix without a sequence number. -/
def plain (raw : String) : Timestamp := ⟨raw, raw, none⟩

theorem parse_raw {s : String} {t : Timestamp} (h : parse s = some t) : t.raw = s := by
  simp only [parse] at h
  split_ifs at h
  split at h
  · split_ifs at h <;> simp only [Option.some.injEq] at h <;> subst h <;> rfl
  · simp only [Option.some.injEq] at h
    subst h
    rfl

theorem parse_timestamp_prefix {s : String} {t : Timestamp} (h : parse s = some t) :
    t.timestamp.toList <+: s.toList := by
  simp only [parse] at h
  split_ifs at h
  split at h
  · rename_i before after hsplit
    split_ifs at h <;> simp only [Option.some.injEq] at h <;> subst h
    · rw [String.toList_ofList, rsplitOnce_some hsplit]
      exact List.prefix_append _ _
    · exact List.prefix_rfl
  · simp only [Option.some.injEq] at h
    subst h
    exact List.prefix_rfl

theorem parse_isSome {s : String} (h : s ≠ "") : ∃ t, parse s = some t := by
  simp only [parse, if_neg h]
  split
  · split_ifs <;> exact ⟨_, rfl⟩
  · exact ⟨_, rfl⟩

theorem parse_ne_empty {s : String} {t : Timestamp} (h : parse s = some t) : s ≠ "" := by
  intro hs
  simp [parse, hs] at h

/-- A timestamp whose fields are those `parse` gives for its raw suffix. -/
def Parsed (t : Timestamp) : Prop := parse t.raw = some t

instance (t : Timestamp) : Decidable (Parsed t) := by unfold Parsed; infer_instance

theorem parsed_of_parse {s : String} {t : Timestamp} (h : parse s = some t) : Parsed t := by
  rw [Parsed, parse_raw h]
  exact h

/-- Among parsed timestamps the raw suffix determines the other fields. -/
theorem Parsed.ext {a b : Timestamp} (ha : Parsed a) (hb : Parsed b) (h : a.raw = b.raw) :
    a = b := by
  have hab : some a = some b := by rw [← ha, ← hb, h]
  exact Option.some.inj hab

/-- The key of the derived order. -/
def sortKey (t : Timestamp) : String ×ₗ String ×ₗ WithBot String :=
  toLex (t.raw, toLex (t.timestamp, t.seq))

theorem sortKey_injective : Function.Injective sortKey := by
  rintro ⟨r, t, s⟩ ⟨r', t', s'⟩ h
  have hr : r = r' := congrArg (fun k => (ofLex k).1) h
  have ht : t = t' := congrArg (fun k => (ofLex (ofLex k).2).1) h
  have hs : s = s' := congrArg (fun k => (ofLex (ofLex k).2).2) h
  rw [hr, ht, hs]

instance : LinearOrder Timestamp := LinearOrder.lift' sortKey sortKey_injective

theorem lt_iff_sortKey (a b : Timestamp) : a < b ↔ a.sortKey < b.sortKey := Iff.rfl

theorem lt_of_raw_lt {a b : Timestamp} (h : a.raw < b.raw) : a < b := by
  rw [lt_iff_sortKey]
  exact Prod.Lex.toLex_lt_toLex.mpr (Or.inl h)

theorem raw_le_of_le {a b : Timestamp} (h : a ≤ b) : a.raw ≤ b.raw := by
  by_contra hn
  exact absurd (lt_of_raw_lt (not_le.mp hn)) (not_lt.mpr h)

/-- The order of parsed timestamps is the order of their raw suffixes. -/
theorem Parsed.lt_iff {a b : Timestamp} (ha : Parsed a) (hb : Parsed b) :
    a < b ↔ a.raw < b.raw := by
  refine ⟨fun h => lt_of_le_of_ne (raw_le_of_le h.le) ?_, lt_of_raw_lt⟩
  intro hraw
  exact absurd (ha.ext hb hraw) h.ne

end Timestamp

/-- The snapshots of one source volume, sorted with the newest last. -/
structure Series where
  origName : String
  snapshots : List Timestamp
  sorted : snapshots.Pairwise (· ≤ ·)

def Series.new (origName : String) (snapshots : List Timestamp) : Series :=
  ⟨origName, sortByKey id snapshots, sortByKey_sorted id snapshots⟩

structure SourceState where
  volume : Series

def SourceState.snapshots (src : SourceState) : List Timestamp := src.volume.snapshots

/-- Every snapshot of the series went through `Timestamp.parse`. -/
def SourceState.Parsed (src : SourceState) : Prop := ∀ s ∈ src.snapshots, s.Parsed

instance (src : SourceState) : Decidable src.Parsed :=
  inferInstanceAs (Decidable (∀ s ∈ src.snapshots, s.Parsed))

end Bbkar
