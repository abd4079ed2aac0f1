import Inlay.Text.Span
import Inlay.Text.Blank
import Inlay.Text.Bracket

/-!
# Host source as a tree of tokens

The library leaves the parsing of host files to a parser that it is handed.  This one
serves where there is no other: it knows just enough of the host grammar to find the
template literals of ordinary code.  Strings and comments have to be told from code, and
brackets, literals and their holes have to nest.

`readTokens?` turns source into a tree of tokens in which every group and every
hole holds its contents.  Blanks and comments are dropped, so a list of tokens
begins and ends where the code that it stands for does.

The reader is an automaton over the characters.  It fails on source whose
brackets do not match, on an unfinished literal, string or comment, and on a
hole without contents.
-/

namespace Inlay
namespace Standalone

/-- A token without parts. -/
inductive Leaf where
  | word (name : String)
  | hiddenName
  | number
  | string
  | dot
  | optionalDot
  | spread
  | comma
  | sign (c : Char)
  deriving DecidableEq, Inhabited

/-- A token, or a group of tokens between brackets, or a template literal with
the tokens of each of its holes. -/
inductive Token where
  | leaf (span : Span) (kind : Leaf)
  | group (span : Span) (bracket : Bracket) (tokens : List Token)
  | template (span : Span) (holes : List (Span × List Token))
  deriving Inhabited

namespace Token

def span : Token → Span
  | .leaf s _ => s
  | .group s _ _ => s
  | .template s _ => s

end Token

/-- From the start of the first token to the end of the last. -/
def spanOfTokens (tokens : List Token) : Span :=
  match tokens.head?, tokens.getLast? with
  | some a, some b => Span.of a.span.start b.span.stop
  | _, _ => Span.empty 0

namespace HostReader

/-- What is open around the current position; tokens and holes that have been
read are held in reverse. -/
inductive Frame where
  | source (read : List Token)
  | group (start : Nat) (bracket : Bracket) (read : List Token)
  | template (start : Nat) (holes : List (Span × List Token))
  | hole (start : Nat) (read : List Token)

/-- Where the automaton stands inside a token. -/
inductive State where
  | code
  | word (start : Nat) (chars : List Char)
  | hiddenName (start : Nat)
  | number (start : Nat) (chars : List Char)
  | string (start : Nat) (quote : Char)
  | stringEscape (start : Nat) (quote : Char)
  | stringLineEnd (start : Nat) (quote : Char)
  | slash (start : Nat)
  | lineComment
  | blockComment
  | blockStar
  | dots (start count : Nat)
  | question (start : Nat)
  | template
  | templateEscape
  | templateDollar (start : Nat)

structure Reader where
  state : State := .code
  top : Frame := .source []
  outer : List Frame := []

def Frame.add (f : Frame) (t : Token) : Frame :=
  match f with
  | .source read => .source (t :: read)
  | .group start b read => .group start b (t :: read)
  | .hole start read => .hole start (t :: read)
  | .template start holes => .template start holes

def Reader.emit (r : Reader) (t : Token) : Reader :=
  { r with state := .code, top := r.top.add t }

def Reader.enter (r : Reader) (state : State) (f : Frame) : Reader :=
  { state := state, top := f, outer := r.top :: r.outer }

def isWordStart (c : Char) : Bool :=
  c.isAlpha || c == '_' || c == '$' || c == '\\' || (0x80 ≤ c.toNat && !isHostBlank c)

def isWordChar (c : Char) : Bool := isWordStart c || c.isDigit

/-- The number goes on with `c`: letters, digits and one point, and a sign
behind the `e` of a decimal. -/
def numberGoesOn (chars : List Char) (c : Char) : Bool :=
  if c.isAlphanum || c == '_' then true
  else if c == '.' then !chars.contains '.'
  else if c == '+' || c == '-' then
    match chars with
    | last :: _ => (last == 'e' || last == 'E') && !chars.contains 'x' && !chars.contains 'X'
    | [] => false
  else false

def Reader.close (r : Reader) (b : Bracket) (stop : Nat) : Option Reader :=
  match r.top, r.outer with
  | .group start b' read, f :: rest =>
    if b = b' then
      some { state := .code, top := f.add (.group (Span.of start stop) b read.reverse),
             outer := rest }
    else none
  | _, _ => none

/-- A closing brace ends a hole or a group.  A hole without contents is no
hole. -/
def Reader.closeCurly (r : Reader) (stop : Nat) : Option Reader :=
  match r.top, r.outer with
  | .hole start read, .template from_ holes :: rest =>
    if read.isEmpty then none
    else
      some { state := .template,
             top := .template from_ ((Span.of start stop, read.reverse) :: holes),
             outer := rest }
  | _, _ => r.close .curly stop

def Reader.closeTemplate (r : Reader) (stop : Nat) : Option Reader :=
  match r.top, r.outer with
  | .template start holes, f :: rest =>
    some { state := .code, top := f.add (.template (Span.of start stop) holes.reverse),
           outer := rest }
  | _, _ => none

/-- A character between tokens, at `pos`. -/
def Reader.code (r : Reader) (pos : Nat) (c : Char) : Option Reader :=
  let stop := pos + c.utf8Size
  if isHostBlank c then some { r with state := .code }
  else if c == '/' then some { r with state := .slash pos }
  else if c == '"' || c == '\x27' then some { r with state := .string pos c }
  else if c == '\x60' then some (r.enter .template (.template pos []))
  else if c == '(' then some (r.enter .code (.group pos .paren []))
  else if c == '[' then some (r.enter .code (.group pos .square []))
  else if c == '\x7b' then some (r.enter .code (.group pos .curly []))
  else if c == ')' then r.close .paren stop
  else if c == ']' then r.close .square stop
  else if c == '\x7d' then r.closeCurly stop
  else if c == '.' then some { r with state := .dots pos 1 }
  else if c == '?' then some { r with state := .question pos }
  else if c == ',' then some (r.emit (.leaf (Span.of pos stop) .comma))
  else if c == '#' then some { r with state := .hiddenName pos }
  else if c.isDigit then some { r with state := .number pos [c] }
  else if isWordStart c then some { r with state := .word pos [c] }
  else some (r.emit (.leaf (Span.of pos stop) (.sign c)))

/-- Finish the token that `pos` ends, where one can end. -/
def Reader.flush (r : Reader) (pos : Nat) : Option Reader :=
  match r.state with
  | .code | .lineComment => some { r with state := .code }
  | .word start chars =>
    some (r.emit (.leaf (Span.of start pos) (.word (String.ofList chars.reverse))))
  | .hiddenName start => some (r.emit (.leaf (Span.of start pos) .hiddenName))
  | .number start _ => some (r.emit (.leaf (Span.of start pos) .number))
  | .slash start => some (r.emit (.leaf (Span.of start pos) (.sign '/')))
  | .question start => some (r.emit (.leaf (Span.of start pos) (.sign '?')))
  | .dots start count =>
    some ((List.range count).foldl
      (fun r i => r.emit (.leaf (Span.of (start + i) (start + i + 1)) .dot)) r)
  | _ => none

/-- Finish the current token and read `c` as the start of the next. -/
def Reader.next (r : Reader) (pos : Nat) (c : Char) : Option Reader := do
  (← r.flush pos).code pos c

/-- A character of a template literal's text. -/
def Reader.templateChar (r : Reader) (pos : Nat) (c : Char) : Option Reader :=
  if c == '\\' then some { r with state := .templateEscape }
  else if c == '\x60' then r.closeTemplate (pos + 1)
  else if c == '$' then some { r with state := .templateDollar pos }
  else some { r with state := .template }

/-- Read the character at `pos`. -/
def Reader.step (r : Reader) (pos : Nat) (c : Char) : Option Reader :=
  let stop := pos + c.utf8Size
  match r.state with
  | .code => r.code pos c
  | .word start chars =>
    if isWordChar c then some { r with state := .word start (c :: chars) } else r.next pos c
  | .hiddenName _ => if isWordChar c then some r else r.next pos c
  | .number start chars =>
    if numberGoesOn chars c then some { r with state := .number start (c :: chars) }
    else r.next pos c
  | .string start quote =>
    if c == quote then some (r.emit (.leaf (Span.of start stop) .string))
    else if c == '\\' then some { r with state := .stringEscape start quote }
    else if c == '\n' || c == '\r' then none
    else some r
  | .stringEscape start quote =>
    if c == '\r' then some { r with state := .stringLineEnd start quote }
    else some { r with state := .string start quote }
  | .stringLineEnd start quote =>
    if c == '\n' then some { r with state := .string start quote }
    else if c == quote then some (r.emit (.leaf (Span.of start stop) .string))
    else if c == '\\' then some { r with state := .stringEscape start quote }
    else if c == '\r' then none
    else some { r with state := .string start quote }
  | .slash _ =>
    if c == '/' then some { r with state := .lineComment }
    else if c == '*' then some { r with state := .blockComment }
    else r.next pos c
  | .lineComment => if isHostLineEnd c then some { r with state := .code } else some r
  | .blockComment => some { r with state := if c == '*' then .blockStar else .blockComment }
  | .blockStar =>
    some { r with
      state := if c == '/' then .code else if c == '*' then .blockStar else .blockComment }
  | .dots start count =>
    if c == '.' then
      if count = 2 then some (r.emit (.leaf (Span.of start stop) .spread))
      else some { r with state := .dots start (count + 1) }
    else if count = 1 && c.isDigit then some { r with state := .number start [c, '.'] }
    else r.next pos c
  | .question start =>
    if c == '.' then some (r.emit (.leaf (Span.of start stop) .optionalDot)) else r.next pos c
  | .template => r.templateChar pos c
  | .templateEscape => some { r with state := .template }
  | .templateDollar start =>
    if c == '\x7b' then some (r.enter .code (.hole start [])) else r.templateChar pos c

/-- Read characters from `pos` on; the source has to end outside of every
bracket. -/
def Reader.run : Reader → Nat → List Char → Option (List Token)
  | r, pos, [] => do
    match (← r.flush pos).top with
    | .source read => some read.reverse
    | _ => none
  | r, pos, c :: cs => do
    let r ← r.step pos c
    r.run (pos + c.utf8Size) cs

end HostReader

/-- The tokens of host source, if its brackets, strings, comments and literals
are complete. -/
def readTokens? (source : String) : Option (List Token) :=
  HostReader.Reader.run {} 0 source.toList

end Standalone
end Inlay
