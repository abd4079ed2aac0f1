import Inlay.Text.Span

/-!
# Lines and columns of stylesheets

Stylesheets are parsed outside of this library.  A parser reports its first error, with
the line and the column if it knows them: lines count from zero, columns from one and in
units of UTF-16.  A line ends at a line feed, at a form feed, or at a carriage return
with or without a line feed behind it.

`offsetOf` turns such a position into a byte offset.  It takes a column for a
number of bytes, so it is exact on lines whose characters before the column are
ASCII, and it never leaves the line.
-/

namespace Inlay
namespace Stylesheet

/-- A line and a column, both counted from zero. -/
structure Mark where
  line : Nat
  column : Nat
  deriving DecidableEq, Inhabited

/-- A line and a column as a parser tells them, the column counted from one. -/
structure Location where
  line : Nat
  column : Nat
  deriving DecidableEq, Inhabited

/-- What is wrong with a stylesheet, and where. -/
structure Error where
  message : String
  location : Option Location := none
  deriving DecidableEq, Inhabited

/-- An error without a location is marked at the start of the text. -/
def Error.mark (e : Error) : Mark :=
  match e.location with
  | some l => { line := l.line, column := l.column - 1 }
  | none => { line := 0, column := 0 }

/-- A parser of stylesheets: from a text to its first error, if there is one. -/
abbrev Parser := String → Option Error

/-- The number of UTF-16 units of a character. -/
def unitsOf (c : Char) : Nat := if c.toNat < 0x10000 then 1 else 2

/-- The place behind a character, when `rest` follows it.  Of a carriage return
with a line feed only the second ends the line. -/
def Mark.next (m : Mark) (c : Char) (rest : List Char) : Mark :=
  if c == '\n' || c == '\x0c' then { line := m.line + 1, column := 0 }
  else if c == '\r' then
    if rest.head? == some '\n' then m else { line := m.line + 1, column := 0 }
  else { m with column := m.column + unitsOf c }

/-- The bytes of a line and of what follows it, behind the `n`th line feed. -/
def fromLine : Nat → List Char → List Char
  | 0, cs => cs
  | _ + 1, [] => []
  | n + 1, c :: cs => if c == '\n' then fromLine n cs else fromLine (n + 1) cs

/-- The byte offset of a line and column.  Neither the line nor the column is
passed. -/
def offsetOf (text : String) (m : Mark) : Nat :=
  let rest := fromLine m.line text.toList
  let lineStart := text.utf8ByteSize - byteLength rest
  let line := rest.takeWhile (· != '\n')
  lineStart + min m.column (byteLength line)

end Stylesheet
end Inlay
