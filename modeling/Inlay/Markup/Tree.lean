import Inlay.Markup.Element

/-!
# Trees

`Tree.ofDocument` reads a document into a tree.  What is still open is held as a
list of frames, the innermost first: a frame is a node without its last
children.  An end tag closes the innermost frame of its name; frames inside
that one never get an end tag, and end where the end tag begins.  An end tag
without a frame of its name is a mistake and changes nothing else.

No token is refused, so every text has a tree.
-/

namespace Inlay
namespace Markup

structure Problem where
  mistake : Mistake
  span : Span
  deriving DecidableEq, Inhabited

/-- The word under which a mistake is reported. -/
def Mistake.code : Mistake → String
  | .endInTag => "EofInTag"
  | .endInComment => "EofInComment"
  | .endTagWithoutName => "MissingEndTagName"
  | .strayEndTag => "UnexpectedEndTag"

def Problem.message (p : Problem) : String :=
  p.mistake.code ++ " at " ++ toString p.span.start ++ ".." ++ toString p.span.stop

/-- The elements of a document that lie in no other element, in their order, and
what was wrong with the text. -/
structure Tree where
  roots : List Element
  problems : List Problem
  deriving Inhabited

/-- An element that is still open: its node, and the children that are complete,
the last one first. -/
structure Frame where
  node : Node
  done : List Element := []
  deriving Inhabited

namespace Frame

def add (f : Frame) (e : Element) : Frame := { f with done := e :: f.done }

def toElement (f : Frame) : Element := .mk f.node f.done.reverse

/-- Let the element end at `stop`, without an end tag. -/
def endAt (f : Frame) (stop : Nat) : Frame := { f with node := f.node.endAt stop }

end Frame

/-- The name, and perhaps the value, of the attribute that is being read. -/
structure Pending where
  name : Span
  value : Option Span := none
  deriving DecidableEq, Inhabited

/-- A tree in the making.

`current` is the node whose start tag is being read; it will belong to the
innermost frame.  The three counts are the numbers of the next node, attribute
and assignment. -/
structure Builder where
  frames : List Frame := []
  roots : List Element := []
  current : Option Node := none
  pending : Option Pending := none
  nodeCount : Nat := 0
  attributeCount : Nat := 0
  assignmentCount : Nat := 0
  problems : List Problem := []
  deriving Inhabited

/-! ## Values -/

/-- The pieces of a range of the document whose holes are given, from `cursor`
on: text between holes, and the holes. -/
def segmentsFrom (d : Document) (text : String) (cursor stop : Nat) : List Hole → List Segment
  | [] => if cursor < stop then [.text ((Span.of cursor stop).sliceD text)] else []
  | h :: rest =>
    let hole := d.holeSpan h
    let before := if cursor < hole.start then [.text ((Span.of cursor hole.start).sliceD text)] else []
    before ++ .hole h :: segmentsFrom d text (max cursor hole.stop) stop rest

/-- The value that a range of the document writes.  A hole that fills the range
is an expression; any other hole makes the value mixed. -/
def valueAt (d : Document) (text : String) (r : Span) : Value :=
  match d.holesIn r with
  | [] => .text (r.sliceD text)
  | [h] => if d.holeSpan h = r then .expression h else .mixed (segmentsFrom d text r.start r.stop [h])
  | hs => .mixed (segmentsFrom d text r.start r.stop hs)

/-- A single hole covers the range. -/
def isCoveredByHole (d : Document) (r : Span) : Bool :=
  (d.holesIn r).any fun h => (d.holeSpan h).covers r

/-- What an attribute is assigned, and where: its presence behind the name, the
value, or the empty text between quotes.  A name with an equals sign and nothing
behind it is assigned nothing. -/
def assigned? (d : Document) (text : String) (p : Pending) (quote : Quote) (stop : Nat) :
    Option (Value × Span) :=
  match quote, p.value with
  | .absent, _ => some (.presence, Span.empty p.name.stop)
  | .unquoted, none => none
  | _, none => some (.text "", Span.empty stop)
  | _, some r => some (valueAt d text r, r)

/-- The binding that the first character of a name selects, and the name behind
that character. -/
def splitModifier (text : String) (name : Span) : Binding × Span :=
  match (name.sliceD text).toList.head?.bind Binding.ofModifier? with
  | some binding => (binding, Span.of (name.start + 1) name.stop)
  | none => (.plain, name)

/-- Where an attribute ends whose value ends at `stop`: behind the closing
quote, if there is one. -/
def attributeStop (quote : Quote) (stop : Nat) : Nat :=
  match quote with
  | .single | .double => stop + 1
  | .absent | .unquoted => stop

namespace Builder

/-- Add a complete element to the innermost frame. -/
def add (b : Builder) (e : Element) : Builder :=
  match b.frames with
  | [] => { b with roots := e :: b.roots }
  | f :: rest => { b with frames := f.add e :: rest }

def report (b : Builder) (mistake : Mistake) (start stop : Nat) : Builder :=
  { b with problems := b.problems ++ [{ mistake := mistake, span := Span.of start stop }] }

/-- Let the node whose start tag is being read be complete as it stands. -/
def dropCurrent (b : Builder) : Builder :=
  match b.current with
  | some n => { b.add (.mk n []) with current := none }
  | none => b

/-- A node with a name right behind its bracket, inside the innermost frame. -/
def newNode (b : Builder) (text : String) (name : Span) : Node :=
  let tag := name.sliceD text
  let parent := b.frames.head?.map (·.node)
  let startTag := Span.of (name.start - 1) name.stop
  { id := b.nodeCount, tag := tag, kind := Kind.of (parent.map (·.kind)) tag,
    whole := startTag, nameSpan := name, startTag := startTag, parent := parent.map (·.id) }

/-- Begin a node. -/
def openNode (b : Builder) (text : String) (name : Span) : Builder :=
  let b := b.dropCurrent
  { b with current := some (b.newNode text name), nodeCount := b.nodeCount + 1 }

/-- End the current start tag.  Void and self-closed elements are complete with
it; any other is open from here on. -/
def endStartTag (b : Builder) (stop : Nat) (selfClosed : Bool) : Builder :=
  match b.current with
  | none => b
  | some n =>
    let n := { n.endStartTag stop with selfClosed := selfClosed }
    let b := { b with current := none }
    if selfClosed || n.isVoid then b.add (.mk n [])
    else { b with frames := { node := n } :: b.frames }

/-- Close the innermost of `frames` with the name of an end tag.  Frames inside
it end where the end tag begins.  The answer is the closed element and the
frames around it. -/
def closeIn (name : String) (tag : Span) : List Frame → Option (Element × List Frame)
  | [] => none
  | f :: rest =>
    if sameName f.node.tag name then
      some (({ f with node := { f.node.endAt tag.stop with endTag := some tag } } :
        Frame).toElement, rest)
    else
      match rest with
      | [] => none
      | g :: outer => closeIn name tag (g.add (f.endAt tag.start).toElement :: outer)
  termination_by frames => frames.length

def closeNode (b : Builder) (text : String) (tag name : Span) : Builder :=
  match closeIn (name.sliceD text) tag b.frames with
  | some (e, frames) => { b with frames := frames }.add e
  | none => b.report .strayEndTag tag.start tag.stop

/-- Give the current node an attribute.  A name that is empty behind its
modifier, or that is only a hole, is no attribute. -/
def addAttribute (b : Builder) (d : Document) (text : String) (p : Pending) (quote : Quote)
    (stop : Nat) : Builder :=
  match b.current with
  | none => b
  | some n =>
    let (binding, nameSpan) := splitModifier text p.name
    if nameSpan.isEmpty || isCoveredByHole d nameSpan then b
    else
      let assignment := (assigned? d text p quote stop).map fun v =>
        { id := b.assignmentCount, owner := b.attributeCount, value := v.1, span := v.2 :
          Assignment }
      let added : Attribute :=
        { id := b.attributeCount, node := n.id, name := nameSpan.sliceD text, binding := binding,
          whole := Span.of p.name.start (attributeStop quote stop), nameSpan := nameSpan,
          assignment := assignment }
      { b with
        current := some { n with attributes := n.attributes ++ [added] }
        attributeCount := b.attributeCount + 1
        assignmentCount := b.assignmentCount + (if assignment.isSome then 1 else 0) }

/-- Make every frame an element that ends at `stop`. -/
def closeAll (stop : Nat) (roots : List Element) : List Frame → List Element
  | [] => roots
  | [f] => (f.endAt stop).toElement :: roots
  | f :: g :: outer => closeAll stop roots (g.add (f.endAt stop).toElement :: outer)
  termination_by frames => frames.length

/-- End everything that is open where the text ends. -/
def finish (b : Builder) (stop : Nat) : Builder :=
  let b := { b with current := b.current.map fun n : Node => n.endStartTag stop }.dropCurrent
  { b with frames := [], roots := closeAll stop b.roots b.frames }

/-- Read a token of the text of a document. -/
def read (d : Document) (text : String) (b : Builder) : Token → Builder
  | .text _ _ | .comment _ _ => b
  | .openName start stop => b.openNode text (Span.of start stop)
  | .openEnd bracket => b.endStartTag (bracket + 1) false
  | .selfClose bracket => b.endStartTag (bracket + 1) true
  | .close start nameStart nameStop stop =>
    b.closeNode text (Span.of start stop) (Span.of nameStart nameStop)
  | .attributeName start stop => { b with pending := some { name := Span.of start stop } }
  | .attributeValue start stop =>
    { b with pending := b.pending.map fun p => { p with value := some (Span.of start stop) } }
  | .attributeEnd quote stop =>
    match b.pending with
    | some p => { b with pending := none }.addAttribute d text p quote stop
    | none => b
  | .mistake kind index => b.report kind index index
  | .finish => b.finish text.utf8ByteSize

/-- All tokens of a document have been read. -/
def ofDocument (d : Document) : Builder :=
  let text := d.text
  (tokens text).foldl (Builder.read d text) {}

/-- The tree that has been made. -/
def toTree (b : Builder) : Tree := { roots := b.roots.reverse, problems := b.problems }

end Builder

def Tree.ofDocument (d : Document) : Tree := (Builder.ofDocument d).toTree

end Markup
end Inlay
