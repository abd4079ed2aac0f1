import Inlay.Text.Distance

/-!
# Edit distance in two buffers

The edit distance can be computed in place.  Two rows are kept: the current one is filled from the
previous one, cell by cell, and then they change places, so what a row begins with is left over
from the row before the previous one.  The distance from or to the empty word is known without
a row.

Cells are read and written by their index.  An index that is out of bounds gives `none`.
-/

namespace Inlay

structure RowBuffers where
  previous : List Nat
  current : List Nat
  deriving DecidableEq, Inhabited

namespace RowBuffers

/-- The previous row is that of the empty word; the current one has not been written. -/
def start (target : List Char) : RowBuffers :=
  { previous := List.range (target.length + 1)
    current := List.replicate (target.length + 1) 0 }

def swap (b : RowBuffers) : RowBuffers := { previous := b.current, current := b.previous }

/-- Write a cell of the current row. -/
def write? (b : RowBuffers) (index value : Nat) : Option RowBuffers :=
  if index < b.current.length then some { b with current := b.current.set index value } else none

/-- Fill the cell behind `index`, for the characters `c` and `d`. -/
def fillCell? (c d : Char) (index : Nat) (b : RowBuffers) : Option RowBuffers := do
  let cost := if c = d then 0 else 1
  let above ← b.previous[index + 1]?
  let left ← b.current[index]?
  let diagonal ← b.previous[index]?
  b.write? (index + 1) (min (min (above + 1) (left + 1)) (diagonal + cost))

/-- Fill the current row behind `index`. -/
def fillRow? (c : Char) : Nat → List Char → RowBuffers → Option RowBuffers
  | _, [], b => some b
  | index, d :: ds, b => do fillRow? c (index + 1) ds (← b.fillCell? c d index)

/-- Read the character of the first word that stands at `index`. -/
def readChar? (target : List Char) (index : Nat) (c : Char) (b : RowBuffers) :
    Option RowBuffers := do
  let b ← b.write? 0 (index + 1)
  return (← fillRow? c 0 target b).swap

def readAll? (target : List Char) : Nat → List Char → RowBuffers → Option RowBuffers
  | _, [], b => some b
  | index, c :: cs, b => do readAll? target (index + 1) cs (← b.readChar? target index c)

/-- The edit distance of two words, exact in case. -/
def wordDistance? (source target : List Char) : Option Nat :=
  if source.isEmpty then some target.length
  else if target.isEmpty then some source.length
  else do
    let b ← readAll? target 0 source (start target)
    b.previous[target.length]?

/-- The edit distance of two names, ignoring ASCII case. -/
def editDistance? (a b : String) : Option Nat :=
  wordDistance? (a.toList.map lowerChar) (b.toList.map lowerChar)

end RowBuffers
end Inlay
