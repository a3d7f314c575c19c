import Mathlib.Data.List.Basic

/-!
# Wildcard patterns

Translation of `wildcard_match`: one row of a table for each pattern character, telling
which prefixes of the text match the pattern read so far.
-/
namespace Bbkar

/-- A `*` extends every match to longer prefixes: from left to right, `dp[j] |= dp[j - 1]`. -/
def starRow : Bool → List Bool → List Bool
  | _, [] => []
  | before, b :: row => (b || before) :: starRow (b || before) row

/-- Any other character extends a match by one text character that it accepts. -/
def charRow (pc : Char) : List Char → List Bool → List Bool
  | t :: text, b :: row => (b && (pc == '?' || pc == t)) :: charRow pc text row
  | _, _ => []

def wildcardRow (text : List Char) (row : List Bool) (pc : Char) : List Bool :=
  if pc = '*' then starRow false row else false :: charRow pc text row

def wildcardMatch (pattern text : String) : Bool :=
  let first := true :: text.toList.map (fun _ => false)
  (pattern.toList.foldl (wildcardRow text.toList) first).getLast?.getD false

example : wildcardMatch "@h?me*" "@home.data" = true := by decide

end Bbkar
