import Bbkar.PrefixRows
import Bbkar.Wildcard

/-!
# The table of `wildcard_match` decides the glob relation

After the characters read so far the row is the prefix row of their product of languages:
a `*` appends any word, another character one letter.
-/
namespace Bbkar

/-- What the piece of text for one pattern character may be. -/
def PieceFor (pc : Char) (piece : List Char) : Prop :=
  if pc = '*' then True else if pc = '?' then ∃ c, piece = [c] else piece = [pc]

/-- The text can be cut into consecutive pieces, one for each pattern character. -/
def Glob (pattern text : String) : Prop :=
  ∃ pieces, List.Forall₂ PieceFor pattern.toList pieces ∧ pieces.flatten = text.toList

/-- The pieces allowed for one pattern character, as the table treats them. -/
def pieceLanguage (pc : Char) : Language Char :=
  if pc = '*' then ⊤ else letters (fun t => pc == '?' || pc == t)

theorem mem_pieceLanguage {pc : Char} {piece : List Char} :
    piece ∈ pieceLanguage pc ↔ PieceFor pc piece := by
  unfold pieceLanguage PieceFor
  split
  · exact iff_of_true trivial trivial
  · rw [mem_letters]
    split
    · next hq => simp [hq]
    · next hq => simp [hq, eq_comm (a := pc)]

/-- `dp[j] |= dp[j - 1]` from left to right: `before` is the cell already rewritten. -/
theorem starRow_prefixRow {L M : Language Char} {text : List Char} {row : List Bool}
    (h : PrefixRow L text row) {before : Bool} (hnil : [] ∈ M ↔ before = true ∨ [] ∈ L)
    (hsnoc : ∀ p c, p ++ [c] ∈ M ↔ p ∈ M ∨ p ++ [c] ∈ L) :
    PrefixRow M text (starRow before row) := by
  induction h generalizing M before with
  | nil head =>
    exact .nil (by rw [hnil, Bool.or_eq_true, head, or_comm])
  | @cons L t text b row head tail ih =>
    have hhead : (b || before) = true ↔ [] ∈ M := by
      rw [hnil, Bool.or_eq_true, head, or_comm]
    refine .cons hhead (ih ?_ ?_)
    · simpa [hhead] using hsnoc [] t
    · intro p c
      simpa using hsnoc (t :: p) c

/-- The other characters read the old row: `first` is the cell left of the ones written. -/
theorem charRow_prefixRow {L M : Language Char} {text : List Char} {row : List Bool}
    {pc : Char} (h : PrefixRow L text row) {first : Bool} (hnil : first = true ↔ [] ∈ M)
    (hsnoc : ∀ p c, p ++ [c] ∈ M ↔ p ∈ L ∧ (pc == '?' || pc == c) = true) :
    PrefixRow M text (first :: charRow pc text row) := by
  induction h generalizing M first with
  | nil head => exact .nil hnil
  | @cons L t text b row head tail ih =>
    refine .cons hnil (ih ?_ ?_)
    · have := hsnoc [] t
      rw [List.nil_append] at this
      rw [Language.mem_leftQuotient, List.append_nil, this, Bool.and_eq_true, head]
    · intro p c
      simpa using hsnoc (t :: p) c

theorem wildcardRow_prefixRow {L : Language Char} {text : List Char} {row : List Bool}
    (h : PrefixRow L text row) (pc : Char) :
    PrefixRow (L * pieceLanguage pc) text (wildcardRow text row pc) := by
  unfold wildcardRow pieceLanguage
  split
  · refine starRow_prefixRow h ?_ fun p c => snoc_mem_mul_top
    simpa using nil_mem_mul_top
  · exact charRow_prefixRow h (by simpa using nil_notMem_mul_letters L _)
      fun p c => snoc_mem_mul_letters

/-- The loop over the pattern multiplies the language of its characters onto the row's. -/
theorem foldl_wildcardRow {text : List Char} (pattern : List Char) {L : Language Char}
    {row : List Bool} (h : PrefixRow L text row) :
    PrefixRow (L * (pattern.map pieceLanguage).prod) text
      (pattern.foldl (wildcardRow text) row) := by
  induction pattern generalizing L row with
  | nil => simpa using h
  | cons pc pattern ih =>
    have hrow := ih (wildcardRow_prefixRow h pc)
    rwa [mul_assoc, ← List.prod_cons, ← List.map_cons] at hrow

/-- `wildcard_match` decides the glob relation. -/
theorem wildcardMatch_iff_glob (pattern text : String) :
    wildcardMatch pattern text = true ↔ Glob pattern text := by
  have hrow := foldl_wildcardRow pattern.toList (prefixRow_one text.toList)
  rw [one_mul] at hrow
  rw [wildcardMatch, prefixRow_getLast hrow, mem_prod_iff_pieces]
  simp only [mem_pieceLanguage, Glob]

end Bbkar
