import Inlay.Host.Expression
import Inlay.Text.Blank

/-!
# Documents inside template literals

A document is what a markup or stylesheet reader sees of one template literal:
the literal text as it stands, and every interpolation hole as a run of
underscores of the same number of bytes.  Because no byte is added or lost, a
position in the document and its position in the host file differ by the start
of the document, and by nothing else.

The text is computed from the parts; nothing else of the document depends on
it.
-/

namespace Inlay

inductive Dialect where
  | markup
  | stylesheet
  deriving DecidableEq, Inhabited

/-- Literal text with its place in the host file. -/
structure TextPart where
  text : String
  span : Span
  deriving DecidableEq, Inhabited

inductive Part where
  | text (part : TextPart)
  | hole (hole : Hole)
  deriving DecidableEq, Inhabited

namespace Part

def span : Part → Span
  | .text t => t.span
  | .hole h => h.span

end Part

/-- A template literal as a document.  `location` is its place in the host file,
between the backticks. -/
structure Document where
  fileName : String
  dialect : Dialect
  location : Span
  parts : List Part
  deriving Inhabited

/-- What stands for `n` bytes that are not literal text. -/
def placeholder (n : Nat) : List Char := List.replicate n '_'

namespace Document

/-- What a part shows of its bytes inside `visible`, a range of the host file.
Text that cannot be cut there shows a placeholder. -/
def shown (part : Part) (visible : Span) : List Char :=
  match part with
  | .text t =>
    match (visible.unshift t.span.start).slice? t.text with
    | some piece => piece.toList
    | none => placeholder visible.length
  | .hole _ => placeholder visible.length

/-- The text of the parts inside `location`, when everything up to `cursor` has
been written.  Room between two parts is filled, so that positions stay
aligned. -/
def textFrom (location : Span) (cursor : Nat) : List Part → List Char
  | [] => []
  | part :: rest =>
    match part.span.overlap? location with
    | none => textFrom location cursor rest
    | some visible =>
      placeholder (visible.start - cursor) ++ shown part visible ++
        textFrom location visible.stop rest

def chars (d : Document) : List Char := textFrom d.location d.location.start d.parts

def text (d : Document) : String := String.ofList d.chars

/-! ## Positions -/

/-- The position in the document of a position in the host file. -/
def ofHost (d : Document) (position : Nat) : Nat := position - d.location.start

/-- The position in the host file of a position in the document. -/
def toHost (d : Document) (offset : Nat) : Nat := offset + d.location.start

def spanOfHost (d : Document) (r : Span) : Span := r.unshift d.location.start

def spanToHost (d : Document) (r : Span) : Span := r.shift d.location.start

/-- A cursor at the host position is in the document. -/
def touchesHost (d : Document) (position : Nat) : Bool := d.location.touches position

/-! ## Holes -/

def holesOf : List Part → List Hole
  | [] => []
  | .text _ :: rest => holesOf rest
  | .hole h :: rest => h :: holesOf rest

def holes (d : Document) : List Hole := holesOf d.parts

def holeSpan (d : Document) (h : Hole) : Span := d.spanOfHost h.span

/-- The holes that share a byte with a range of the document. -/
def holesIn (d : Document) (r : Span) : List Hole :=
  d.holes.filter fun h => h.span.overlaps (d.spanToHost r)

theorem ofHost_toHost (d : Document) (offset : Nat) : d.ofHost (d.toHost offset) = offset :=
  Nat.add_sub_cancel offset d.location.start

end Document
end Inlay
