import Inlay.Stylesheet.Position
import Inlay.Text.Blank
import Inlay.Text.Bracket

/-!
# Stylesheet tokens

The library leaves the reading of stylesheets to a parser that it is handed.  This one
serves where there is no other.  A stylesheet is cut into tokens, and the tokens are put
into blocks.  A bracket that closes no open block is an ordinary token, and a block that is
never closed ends with the text.  Comments disappear.
-/

namespace Inlay
namespace Standalone
namespace Stylesheet

open Inlay.Stylesheet (Mark)

inductive Kind where
  | blank
  | word (name : String)
  | number
  | hash
  | string
  | colon
  | semicolon
  | comma
  | opening (bracket : Bracket)
  | closing (bracket : Bracket)
  | sign (c : Char)
  deriving DecidableEq, Inhabited

structure Token where
  mark : Mark
  kind : Kind
  deriving DecidableEq, Inhabited

/-- How an error names a token. -/
def Kind.describe : Kind → String
  | .blank => "WhiteSpace(\" \")"
  | .word name => "Ident(\"" ++ name ++ "\")"
  | .number => "Number"
  | .hash => "Hash"
  | .string => "QuotedString"
  | .colon => "Colon"
  | .semicolon => "Semicolon"
  | .comma => "Comma"
  | .opening .paren => "ParenthesisBlock"
  | .opening .square => "SquareBracketBlock"
  | .opening .curly => "CurlyBracketBlock"
  | .closing .paren => "CloseParenthesis"
  | .closing .square => "CloseSquareBracket"
  | .closing .curly => "CloseCurlyBracket"
  | .sign c => "Delim('" ++ c.toString ++ "')"

/-! ## Cutting -/

/-- Where the reader stands inside a token that began at a mark. -/
inductive State where
  | between
  | word (start : Mark) (chars : List Char)
  | wordEscape (start : Mark) (chars : List Char)
  | number (start : Mark)
  | hash (start : Mark)
  | string (start : Mark) (quote : Char)
  | stringEscape (start : Mark) (quote : Char)
  | slash (start : Mark)
  | comment
  | commentStar
  deriving DecidableEq, Inhabited

def startsWord (c : Char) : Bool := c.isAlpha || c == '_' || c == '-' || 0x80 ≤ c.toNat

def continuesWord (c : Char) : Bool := startsWord c || c.isDigit

/-- The kind of a character that is a token by itself. -/
def kindOf (c : Char) : Kind :=
  if isMarkupBlank c then .blank
  else if c == ':' then .colon
  else if c == ';' then .semicolon
  else if c == ',' then .comma
  else if c == '(' then .opening .paren
  else if c == '[' then .opening .square
  else if c == '\x7b' then .opening .curly
  else if c == ')' then .closing .paren
  else if c == ']' then .closing .square
  else if c == '\x7d' then .closing .curly
  else .sign c

/-- Read a character between tokens. -/
def enter (m : Mark) (c : Char) : State × List Token :=
  if c == '/' then (.slash m, [])
  else if c == '"' || c == '\x27' then (.string m c, [])
  else if c == '#' then (.hash m, [])
  else if c == '\\' then (.wordEscape m [c], [])
  else if startsWord c then (.word m [c], [])
  else if c.isDigit then (.number m, [])
  else (.between, [{ mark := m, kind := kindOf c }])

/-- The token that is complete when the text ends or another token begins. -/
def finished (s : State) : List Token :=
  match s with
  | .between | .comment | .commentStar => []
  | .word start chars | .wordEscape start chars =>
    [{ mark := start, kind := .word (String.ofList chars.reverse) }]
  | .number start => [{ mark := start, kind := .number }]
  | .hash start => [{ mark := start, kind := .hash }]
  | .string start _ | .stringEscape start _ => [{ mark := start, kind := .string }]
  | .slash start => [{ mark := start, kind := .sign '/' }]

/-- Finish the current token, and read `c` as the start of another. -/
def leave (s : State) (m : Mark) (c : Char) : State × List Token :=
  let next := enter m c
  (next.1, finished s ++ next.2)

def step (s : State) (m : Mark) (c : Char) : State × List Token :=
  match s with
  | .between => enter m c
  | .word start chars =>
    if continuesWord c then (.word start (c :: chars), [])
    else if c == '\\' then (.wordEscape start (c :: chars), [])
    else leave s m c
  | .wordEscape start chars => (.word start (c :: chars), [])
  | .number _ => if continuesWord c || c == '.' || c == '%' then (s, []) else leave s m c
  | .hash _ => if continuesWord c then (s, []) else leave s m c
  | .string start quote =>
    if c == quote then (.between, finished s)
    else if c == '\\' then (.stringEscape start quote, [])
    else if c == '\n' || c == '\r' || c == '\x0c' then leave s m c
    else (s, [])
  | .stringEscape start quote => (.string start quote, [])
  | .slash _ => if c == '*' then (.comment, []) else leave s m c
  | .comment => (if c == '*' then .commentStar else .comment, [])
  | .commentStar => (if c == '/' then .between else if c == '*' then .commentStar else .comment, [])

/-- The tokens of the characters from a mark on, and the mark behind them. -/
def tokensFrom (s : State) (m : Mark) : List Char → List Token × Mark
  | [] => (finished s, m)
  | c :: cs =>
    let next := step s m c
    let rest := tokensFrom next.1 (m.next c cs) cs
    (next.2 ++ rest.1, rest.2)

/-! ## Blocks -/

/-- A token, or a block between brackets with the marks of both. -/
inductive Piece where
  | token (t : Token)
  | block (start : Mark) (bracket : Bracket) (pieces : List Piece) (stop : Mark)
  deriving Inhabited

def Piece.mark : Piece → Mark
  | .token t => t.mark
  | .block start _ _ _ => start

/-- A block that is still open, with its pieces in reverse. -/
structure OpenBlock where
  start : Mark
  bracket : Bracket
  pieces : List Piece
  deriving Inhabited

/-- The pieces outside of all blocks in reverse, and the open blocks, the
innermost first. -/
structure Nesting where
  outside : List Piece := []
  blocks : List OpenBlock := []
  deriving Inhabited

namespace Nesting

def add (n : Nesting) (p : Piece) : Nesting :=
  match n.blocks with
  | [] => { n with outside := p :: n.outside }
  | b :: rest => { n with blocks := { b with pieces := p :: b.pieces } :: rest }

def close (n : Nesting) (stop : Mark) : Nesting :=
  match n.blocks with
  | [] => n
  | b :: rest => { n with blocks := rest }.add (.block b.start b.bracket b.pieces.reverse stop)

def read (n : Nesting) (t : Token) : Nesting :=
  match t.kind with
  | .opening bracket =>
    { n with blocks := { start := t.mark, bracket := bracket, pieces := [] } :: n.blocks }
  | .closing bracket =>
    if n.blocks.head?.any fun b => b.bracket = bracket then n.close t.mark
    else n.add (.token t)
  | _ => n.add (.token t)

/-- End all blocks where the text ends. -/
def finish (n : Nesting) (stop : Mark) : List Piece :=
  (n.blocks.foldl (fun n _ => n.close stop) n).outside.reverse

end Nesting

/-- The pieces of a stylesheet, and the mark of its end. -/
def pieces (text : String) : List Piece × Mark :=
  let (tokens, stop) := tokensFrom .between { line := 0, column := 0 } text.toList
  ((tokens.foldl Nesting.read {}).finish stop, stop)

end Stylesheet
end Standalone
end Inlay
