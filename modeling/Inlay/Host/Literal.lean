import Inlay.Document.Basic
import Inlay.Host.Code

/-!
# Tagged literals of a host file

Host files are parsed outside of this library.  Of a parser only the tagged templates
matter, in the order in which a walk over the tree meets them: a template comes before
what stands in its tag, and that before what stands in its holes.

`documents?` makes a document of each template with a recognized tag.  Holes are numbered
in the order of the walk, all of one literal before those of the next; the documents are
listed by their place.
-/

namespace Inlay

/-- The tags that mark literals as documents. -/
structure LiteralTags where
  markup : List String := ["html", "svg", "raw"]
  stylesheet : List String := ["css"]
  deriving DecidableEq, Inhabited

/-- The dialect of literals with a tag. -/
def LiteralTags.dialect? (tags : LiteralTags) (tag : String) : Option Dialect :=
  if tags.markup.contains tag then some .markup
  else if tags.stylesheet.contains tag then some .stylesheet
  else none

/-- A template literal behind a tag: its place with the backticks, the places of its
texts, and the expressions between them. -/
structure TaggedTemplate where
  tag : Code
  span : Span
  texts : List Span
  expressions : List Code
  deriving DecidableEq, Inhabited

/-- The gaps between one text and the next, with the expressions in them. -/
def TaggedTemplate.gaps (t : TaggedTemplate) : List (Span × Code) :=
  (t.expressions.zip (t.texts.zip t.texts.tail)).map fun (code, before, after) =>
    (Span.of before.stop after.start, code)

/-- A literal that is a document: its place with the backticks, and the gaps between its
texts with the expressions in them. -/
structure Literal where
  span : Span
  dialect : Dialect
  gaps : List (Span × Code)
  deriving Inhabited

namespace Literal

/-- The texts between gaps, from `cursor` up to `stop`. -/
def textsFrom (stop : Nat) : Nat → List Span → List Span
  | cursor, [] => [{ start := cursor, stop := stop }]
  | cursor, gap :: rest => { start := cursor, stop := gap.start } :: textsFrom stop gap.stop rest

/-- The literal that a template is, if its tag is recognized. -/
def ofTemplate? (tags : LiteralTags) (t : TaggedTemplate) : Option Literal :=
  (t.tag.name?.bind tags.dialect?).map fun dialect =>
    { span := t.span, dialect := dialect, gaps := t.gaps }

/-- The text part of a range of the source, if the range is not empty. -/
def textParts (source : String) (start stop : Nat) : List Part :=
  if start < stop then
    let span := Span.of start stop
    [.text { text := span.sliceD source, span := span }]
  else []

/-- A gap is a hole if it begins with a dollar sign and an opening brace and ends with
a closing one. -/
def isHole (source : String) (gap : Span) : Bool :=
  match (gap.slice? source).map String.toList with
  | some ('$' :: '\x7b' :: inner) => inner.getLast? == some '\x7d'
  | _ => false

/-- The gaps that are holes.  Any other gap is left to the text around it. -/
def holes (source : String) (l : Literal) : List (Span × Code) :=
  l.gaps.filter fun gap => isHole source gap.1

/-- The parts of a literal from `cursor` up to `stop`; its holes are numbered
from `next` on. -/
def partsFrom (source : String) (stop : Nat) : Nat → Nat → List (Span × Code) → List Part
  | cursor, _, [] => textParts source cursor stop
  | cursor, next, (span, code) :: rest =>
    let hole : Hole :=
      { id := next, expression := HostExpression.read source code.span, span := span,
        call := code.callShape? source }
    textParts source cursor span.start ++
      .hole hole :: partsFrom source stop span.stop (next + 1) rest

/-- Between the backticks. -/
def location (l : Literal) : Span := Span.of (l.span.start + 1) (l.span.stop - 1)

/-- A literal as a document whose holes are numbered from `next` on. -/
def toDocument (fileName source : String) (next : Nat) (l : Literal) : Document :=
  { fileName := fileName, dialect := l.dialect, location := l.location,
    parts := partsFrom source l.location.stop l.location.start next (l.holes source) }

/-- The documents of literals whose first hole has the number `next`. -/
def documentsFrom (fileName source : String) : Nat → List Literal → List Document
  | _, [] => []
  | next, l :: rest =>
    l.toDocument fileName source next ::
      documentsFrom fileName source (next + (l.holes source).length) rest

/-- The documents of the literals of a file, by their place. -/
def documents (fileName source : String) (literals : List Literal) : List Document :=
  (documentsFrom fileName source 0 literals).mergeSort fun a b =>
    a.location.start ≤ b.location.start

end Literal

/-- A parser of host files: from the name and the source of a file to its tagged templates
in the order of a walk, or to nothing if it gives up. -/
abbrev HostParser := String → String → Option (List TaggedTemplate)

/-- The documents of a host file by their place, if it can be parsed. -/
def documents? (parse : HostParser) (fileName source : String) (tags : LiteralTags) :
    Option (List Document) :=
  (parse fileName source).map fun templates =>
    Literal.documents fileName source (templates.filterMap (Literal.ofTemplate? tags))

end Inlay
