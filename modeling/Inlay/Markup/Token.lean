import Inlay.Text.Name
import Inlay.Text.Blank

/-!
# Markup tokens

`Markup.tokens` cuts text into markup tokens.  The scanner reads one character at
a time and knows nothing of bindings or of holes: a modifier is part of an
attribute's name, and a placeholder is text.

Every state of the scanner carries exactly the positions that the tokens behind
it will need, so a state by itself says what has been read since the last
token.  Positions are byte offsets.  The scanner looks ahead in two places only:
for the end of a comment, and for the end tag that ends raw text.
-/

namespace Inlay
namespace Markup

/-- How the value of an attribute is written. -/
inductive Quote where
  | absent
  | unquoted
  | single
  | double
  deriving DecidableEq, Inhabited

/-- What is wrong with markup.  No mistake stops the reading. -/
inductive Mistake where
  | endInTag
  | endInComment
  | endTagWithoutName
  | strayEndTag
  deriving DecidableEq, Inhabited

/-- A token, with the byte offsets of what it stands for.  The end of a start
tag is given by the place of its closing bracket; an end tag reaches past its
own. -/
inductive Token where
  | text (start stop : Nat)
  | openName (start stop : Nat)
  | openEnd (bracket : Nat)
  | selfClose (bracket : Nat)
  | close (start nameStart nameStop stop : Nat)
  | attributeName (start stop : Nat)
  | attributeValue (start stop : Nat)
  | attributeEnd (quote : Quote) (stop : Nat)
  | comment (start stop : Nat)
  | mistake (kind : Mistake) (index : Nat)
  | finish
  deriving DecidableEq, Inhabited

/-- The states of the scanner.  `tag` is where the bracket of an end tag stands,
`name` holds the characters of the name of the tag opened last, and `start` is
where the text, name, value or comment being read begins. -/
inductive State where
  | text (start : Nat)
  | tagOpen (start : Nat)
  | tagName (start : Nat) (name : List Char)
  | selfClosing (name : List Char)
  | endTagOpen (tag : Nat)
  | endTagName (tag start : Nat)
  | afterEndTagName (tag start stop : Nat)
  | beforeAttribute (name : List Char)
  | attributeName (name : List Char) (start : Nat)
  | afterAttribute (name : List Char)
  | beforeValue (name : List Char)
  | doubleQuoted (name : List Char) (start : Nat)
  | singleQuoted (name : List Char) (start : Nat)
  | unquoted (name : List Char) (start : Nat)
  | declarationOpen
  | declaration
  | commentOpen
  | comment (start : Nat)
  | commentDash
  | commentBracket
  | rawText (name : List Char) (start : Nat)
  deriving DecidableEq, Inhabited

/-- A letter that starts a tag name. -/
def isTagStart (c : Char) : Bool := ('a' ≤ c && c ≤ 'z') || ('A' ≤ c && c ≤ 'Z')

/-- A character that ends a tag name or an attribute name. -/
def endsName (c : Char) : Bool := c == '/' || c == '>' || isMarkupBlank c

/-- The text token of what was read since `start`, if that is not empty. -/
def textSince (start pos : Nat) : List Token :=
  if start < pos then [.text start pos] else []

/-- The tokens at the end of a value: the value, if it is not empty, and the end
of its attribute. -/
def valueSince (start : Nat) (quote : Quote) (pos : Nat) : List Token :=
  (if start < pos then [.attributeValue start pos] else []) ++ [.attributeEnd quote pos]

/-- `rest` goes on with the end tag of `name`, behind the opening bracket. -/
def endsRawText (name rest : List Char) : Bool :=
  match rest with
  | '/' :: cs =>
    (cs.take name.length).map lowerChar == name.map lowerChar &&
      match cs.drop name.length with
      | [] => true
      | c :: _ => endsName c
  | _ => false

/-! ## Steps

Each of the following reads the character `c` at `pos` in one state, and gives
the next state and the tokens that are complete. -/

/-- The state behind a start tag. -/
def content (name : List Char) (start : Nat) : State :=
  if isRawTextTag (String.ofList name) then .rawText name start else .text start

def inText (start pos : Nat) (c : Char) : State × List Token :=
  if c == '<' then (.tagOpen pos, textSince start pos) else (.text start, [])

def inBeforeAttribute (name : List Char) (pos : Nat) (c : Char) : State × List Token :=
  if c == '>' then (content name (pos + 1), [.openEnd pos])
  else if c == '/' then (.selfClosing name, [])
  else if isMarkupBlank c then (.beforeAttribute name, [])
  else (.attributeName name pos, [])

/-- Go on with `c` before an attribute, once `done` has been read. -/
def thenBeforeAttribute (done : List Token) (name : List Char) (pos : Nat) (c : Char) :
    State × List Token :=
  let next := inBeforeAttribute name pos c
  (next.1, done ++ next.2)

def inTagOpen (start pos : Nat) (c : Char) : State × List Token :=
  if c == '!' then (.declarationOpen, [])
  else if c == '?' then (.declaration, [])
  else if isTagStart c then (.tagName pos [c], [])
  else if c == '/' then (.endTagOpen start, [])
  else inText start pos c

def inTagName (start : Nat) (name : List Char) (pos : Nat) (c : Char) : State × List Token :=
  if endsName c then thenBeforeAttribute [.openName start pos] name pos c
  else (.tagName start (name ++ [c]), [])

def inSelfClosing (name : List Char) (pos : Nat) (c : Char) : State × List Token :=
  if c == '>' then (.text (pos + 1), [.selfClose pos])
  else if isMarkupBlank c then (.selfClosing name, [])
  else inBeforeAttribute name pos c

def inEndTagOpen (tag pos : Nat) (c : Char) : State × List Token :=
  if isMarkupBlank c then (.endTagOpen tag, [])
  else if c == '>' then (.text (pos + 1), [.mistake .endTagWithoutName pos])
  else (.endTagName tag pos, [])

def inEndTagName (tag start pos : Nat) (c : Char) : State × List Token :=
  if c == '>' then (.text (pos + 1), [.close tag start pos (pos + 1)])
  else if isMarkupBlank c then (.afterEndTagName tag start pos, [])
  else (.endTagName tag start, [])

def inAfterEndTagName (tag start stop pos : Nat) (c : Char) : State × List Token :=
  if c == '>' then (.text (pos + 1), [.close tag start stop (pos + 1)])
  else (.afterEndTagName tag start stop, [])

/-- Behind an attribute's name, once `done` has been read. -/
def inAfterAttribute (done : List Token) (name : List Char) (pos : Nat) (c : Char) :
    State × List Token :=
  if c == '=' then (.beforeValue name, done)
  else if c == '/' || c == '>' then
    thenBeforeAttribute (done ++ [.attributeEnd .absent pos]) name pos c
  else if isMarkupBlank c then (.afterAttribute name, done)
  else (.attributeName name pos, done ++ [.attributeEnd .absent pos])

def inAttributeName (name : List Char) (start pos : Nat) (c : Char) : State × List Token :=
  if c == '=' || endsName c then inAfterAttribute [.attributeName start pos] name pos c
  else (.attributeName name start, [])

def inUnquoted (name : List Char) (start pos : Nat) (c : Char) : State × List Token :=
  if isMarkupBlank c || c == '>' then
    thenBeforeAttribute (valueSince start .unquoted pos) name pos c
  else (.unquoted name start, [])

def inBeforeValue (name : List Char) (pos : Nat) (c : Char) : State × List Token :=
  if c == '"' then (.doubleQuoted name (pos + 1), [])
  else if c == '\x27' then (.singleQuoted name (pos + 1), [])
  else if isMarkupBlank c then (.beforeValue name, [])
  else inUnquoted name pos pos c

def inDeclaration (pos : Nat) (c : Char) : State × List Token :=
  if c == '>' then (.text (pos + 1), []) else (.declaration, [])

def inComment (start pos : Nat) (c : Char) (rest : List Char) : State × List Token :=
  match c, rest with
  | '-', '-' :: '>' :: _ => (.commentDash, [.comment start pos])
  | _, _ => (.comment start, [])

def inRawText (name : List Char) (start pos : Nat) (c : Char) (rest : List Char) :
    State × List Token :=
  if c == '<' && endsRawText name rest then (.tagOpen pos, textSince start pos)
  else (.rawText name start, [])

/-- Read the character `c` at `pos`, with `rest` behind it. -/
def step (s : State) (pos : Nat) (c : Char) (rest : List Char) : State × List Token :=
  match s with
  | .text start => inText start pos c
  | .tagOpen start => inTagOpen start pos c
  | .tagName start name => inTagName start name pos c
  | .selfClosing name => inSelfClosing name pos c
  | .endTagOpen tag => inEndTagOpen tag pos c
  | .endTagName tag start => inEndTagName tag start pos c
  | .afterEndTagName tag start stop => inAfterEndTagName tag start stop pos c
  | .beforeAttribute name => inBeforeAttribute name pos c
  | .attributeName name start => inAttributeName name start pos c
  | .afterAttribute name => inAfterAttribute [] name pos c
  | .beforeValue name => inBeforeValue name pos c
  | .doubleQuoted name start =>
    if c == '"' then (.beforeAttribute name, valueSince start .double pos)
    else (.doubleQuoted name start, [])
  | .singleQuoted name start =>
    if c == '\x27' then (.beforeAttribute name, valueSince start .single pos)
    else (.singleQuoted name start, [])
  | .unquoted name start => inUnquoted name start pos c
  | .declarationOpen => if c == '-' then (.commentOpen, []) else inDeclaration pos c
  | .declaration => inDeclaration pos c
  | .commentOpen => if c == '-' then (.comment (pos + 1), []) else inDeclaration pos c
  | .comment start => inComment start pos c rest
  | .commentDash => (.commentBracket, [])
  | .commentBracket => (.text (pos + 1), [])
  | .rawText name start => inRawText name start pos c rest

/-- The tokens that the end of the text at `pos` completes. -/
def atEnd (s : State) (pos : Nat) : List Token :=
  match s with
  | .text start | .rawText _ start => textSince start pos
  | .tagName start _ => [.openName start pos, .mistake .endInTag pos]
  | .attributeName _ start =>
    [.attributeName start pos, .attributeEnd .absent pos, .mistake .endInTag pos]
  | .afterAttribute _ => [.attributeEnd .absent pos, .mistake .endInTag pos]
  | .doubleQuoted _ start | .singleQuoted _ start | .unquoted _ start =>
    valueSince start .unquoted pos ++ [.mistake .endInTag pos]
  | .beforeAttribute _ | .beforeValue _ | .selfClosing _ | .endTagOpen _ | .endTagName _ _
  | .afterEndTagName _ _ _ => [.mistake .endInTag pos]
  | .comment start => [.mistake .endInComment pos, .comment start pos]
  | _ => []

/-- The tokens of the characters from `pos` on. -/
def scan (s : State) (pos : Nat) : List Char → List Token
  | [] => atEnd s pos ++ [.finish]
  | c :: cs =>
    let next := step s pos c cs
    next.2 ++ scan next.1 (pos + c.utf8Size) cs

def tokens (text : String) : List Token := scan (.text 0) 0 text.toList

/-- The state behind the characters, with `after` behind them. -/
def stateAfter (s : State) (pos : Nat) (after : List Char) : List Char → State
  | [] => s
  | c :: cs => stateAfter (step s pos c (cs ++ after)).1 (pos + c.utf8Size) after cs

end Markup
end Inlay
