import Inlay.Text.Name

/-!
# Edit distance and nearest names

The distance between two names is the least number of single-character
insertions, deletions and substitutions between them, ignoring ASCII case.  It
is computed row by row: a row holds the distances from one start segment of the
first word to every start segment of the second.

`nearest?` picks the name for a "did you mean" hint.
-/

namespace Inlay

/-- The distances that extend one row by one character of the first word.

`left` is the distance just computed, `diagonal` and `above` are neighbours in
the row before; `above :: rest` is what remains of that row. -/
def extendRow (c : Char) (left diagonal : Nat) : List Char → List Nat → List Nat
  | d :: ds, above :: rest =>
    let cost := if c = d then 0 else 1
    let cell := min (min (above + 1) (left + 1)) (diagonal + cost)
    cell :: extendRow c cell above ds rest
  | _, _ => []

/-- The row behind `row` once the first word has one more character. -/
def nextRow (c : Char) (target : List Char) : List Nat → List Nat
  | corner :: row => (corner + 1) :: extendRow c (corner + 1) corner target row
  | [] => []

/-- The distances from the empty word to the start segments of `target`. -/
def firstRow (target : List Char) : List Nat := List.range (target.length + 1)

/-- The edit distance of two words, exact in case. -/
def wordDistance (source target : List Char) : Nat :=
  (source.foldl (fun row c => nextRow c target row) (firstRow target)).getLast?.getD 0

/-- The edit distance of two names, ignoring ASCII case. -/
def editDistance (a b : String) : Nat :=
  wordDistance (a.toList.map lowerChar) (b.toList.map lowerChar)

/-- How far a suggestion may lie from `name`: at most `most`, and less than the
length of the name, so that a short name is not near everything. -/
def suggestionLimit (name : String) (most : Nat) : Nat := min most (name.length - 1)

/-- Keep the nearer of two candidates, the earlier one on a tie. -/
def nearerOf (best : Option (String × Nat)) (candidate : String × Nat) : Option (String × Nat) :=
  match best with
  | some (b, d) => if d ≤ candidate.2 then some (b, d) else some candidate
  | none => some candidate

/-- The candidates that may be suggested for `name`, with their distances.  The
name itself, in any case, is no suggestion. -/
def admissible (name : String) (candidates : List String) (most : Nat) : List (String × Nat) :=
  (candidates.filter fun c => !sameName c name).filterMap fun c =>
    let d := editDistance name c
    if d ≤ suggestionLimit name most then some (c, d) else none

/-- The first of the nearest admissible candidates. -/
def nearest? (name : String) (candidates : List String) (most : Nat) : Option String :=
  ((admissible name candidates most).foldl nearerOf none).map (·.1)

end Inlay
