import Inlay.Markup.Token
import Inlay.Document.Basic

/-!
# Elements, attributes and values

The tree that markup is read into.  Nodes, attributes and assignments are
numbered in the order in which they begin in the text, and the numbers are the
names under which answers refer to them.
-/

namespace Inlay
namespace Markup

/-- The character in front of an attribute's name that selects how its value is
bound. -/
inductive Binding where
  | plain
  | boolean
  | property
  | event
  deriving DecidableEq, Inhabited

/-- The kind of binding that a modifier selects. -/
def Binding.ofModifier? : Char → Option Binding
  | '?' => some .boolean
  | '.' => some .property
  | '@' => some .event
  | _ => none

def Binding.modifier? : Binding → Option Char
  | .plain => none
  | .boolean => some '?'
  | .property => some '.'
  | .event => some '@'

/-- A piece of a value that mixes text with holes. -/
inductive Segment where
  | text (text : String)
  | hole (hole : Hole)
  deriving DecidableEq, Inhabited

/-- What an attribute is assigned: nothing but its presence, a text, an
expression, or a mixture. -/
inductive Value where
  | presence
  | text (text : String)
  | expression (hole : Hole)
  | mixed (segments : List Segment)
  deriving DecidableEq, Inhabited

namespace Value

/-- The first hole among the pieces of a mixed value. -/
def firstHole? : List Segment → Option Hole
  | [] => none
  | .text _ :: rest => firstHole? rest
  | .hole h :: _ => some h

def hole? : Value → Option Hole
  | .expression h => some h
  | .mixed segments => firstHole? segments
  | .presence | .text _ => none

end Value

/-- The value side of the attribute with the number `owner`.  The span has no quotes,
and is empty behind the name when only the presence is assigned. -/
structure Assignment where
  id : Nat
  owner : Nat
  value : Value
  span : Span
  deriving DecidableEq, Inhabited

/-- An attribute of the node with the number `node`.  `whole` reaches over the
modifier, the name and the value; the name is held without the modifier. -/
structure Attribute where
  id : Nat
  node : Nat
  name : String
  binding : Binding
  whole : Span
  nameSpan : Span
  assignment : Option Assignment := none
  deriving DecidableEq, Inhabited

def Attribute.lower (a : Attribute) : String := lowerName a.name

/-- How the content of an element is to be read.  `svg` also holds below an
`svg` element. -/
inductive Kind where
  | element
  | style
  | svg
  deriving DecidableEq, Inhabited

/-- The kind of an element below a parent. -/
def Kind.of (parent : Option Kind) (tag : String) : Kind :=
  if parent = some .svg ∨ lowerName tag = "svg" then .svg
  else if lowerName tag = "style" then .style
  else .element

/-- What an element holds besides its children. -/
structure Node where
  id : Nat
  tag : String
  kind : Kind
  whole : Span
  nameSpan : Span
  startTag : Span
  endTag : Option Span := none
  attributes : List Attribute := []
  parent : Option Nat := none
  selfClosed : Bool := false
  deriving DecidableEq, Inhabited

namespace Node

def lower (n : Node) : String := lowerName n.tag

def isVoid (n : Node) : Bool := isVoidTag n.tag

/-- The end tag is missing where one belongs. -/
def isUnclosed (n : Node) : Bool := n.endTag.isNone && !n.selfClosed && !n.isVoid

/-- Between the start tag and the end tag. -/
def content? (n : Node) : Option Span :=
  n.endTag.map fun e => Span.of n.startTag.stop e.start

/-- The node with its start tag, and so far all of it, ending at `stop`. -/
def endStartTag (n : Node) (stop : Nat) : Node :=
  { n with startTag := { n.startTag with stop := stop }, whole := { n.whole with stop := stop } }

/-- The node ending at `stop`. -/
def endAt (n : Node) (stop : Nat) : Node := { n with whole := { n.whole with stop := stop } }

/-- The first attribute with a name, in any case and under any modifier. -/
def attribute? (n : Node) (name : String) : Option Attribute :=
  n.attributes.find? fun a => sameName a.name name

end Node

inductive Element where
  | mk (node : Node) (children : List Element)
  deriving Inhabited

namespace Element

def node : Element → Node
  | .mk n _ => n

def children : Element → List Element
  | .mk _ cs => cs

end Element
end Markup
end Inlay
