import Inlay.Markup.Tree

/-!
# Lookups in a tree

`Tree.nodes` lists the nodes in document order, each before its children.  A
cursor is looked up from the outside in: among siblings the first one that it
touches is entered.
-/

namespace Inlay
namespace Markup

mutual
/-- The nodes of an element, the element's own first. -/
def Element.walk : Element → List Node
  | .mk n cs => n :: walkAll cs

def walkAll : List Element → List Node
  | [] => []
  | e :: es => e.walk ++ walkAll es
end

mutual
/-- The nodes around a cursor that touches the element, the innermost first. -/
def Element.pathAt (offset : Nat) : Element → List Node
  | .mk n cs => pathIn offset cs ++ [n]

/-- The nodes around a cursor, below the first element that it touches. -/
def pathIn (offset : Nat) : List Element → List Node
  | [] => []
  | e :: es => if e.node.whole.touches offset then e.pathAt offset else pathIn offset es
end

mutual
def Element.find? (id : Nat) : Element → Option Element
  | .mk n cs => if n.id = id then some (.mk n cs) else findIn? id cs

def findIn? (id : Nat) : List Element → Option Element
  | [] => none
  | e :: es =>
    match e.find? id with
    | some found => some found
    | none => findIn? id es
end

namespace Tree

/-- All nodes in document order. -/
def nodes (t : Tree) : List Node := walkAll t.roots

/-- All attributes in document order. -/
def attributes (t : Tree) : List Attribute := t.nodes.flatMap (·.attributes)

def node? (t : Tree) (id : Nat) : Option Node := (findIn? id t.roots).map (·.node)

def childrenOf (t : Tree) (id : Nat) : List Node :=
  match findIn? id t.roots with
  | some e => e.children.map (·.node)
  | none => []

def parent? (t : Tree) (n : Node) : Option Node := n.parent.bind t.node?

/-- The nodes around a cursor, the innermost first. -/
def pathAt (t : Tree) (offset : Nat) : List Node := pathIn offset t.roots

/-- The innermost node that a cursor touches. -/
def nodeAt? (t : Tree) (offset : Nat) : Option Node := (t.pathAt offset).head?

/-- The node whose start tag a cursor touches. -/
def startTagAt? (t : Tree) (offset : Nat) : Option Node :=
  (t.nodeAt? offset).filter fun n => n.startTag.touches offset

def attributeAt? (t : Tree) (offset : Nat) : Option Attribute :=
  (t.startTagAt? offset).bind fun n => n.attributes.find? fun a => a.whole.touches offset

/-- The attributes that share a byte with a range. -/
def attributesIn (t : Tree) (r : Span) : List Attribute :=
  t.attributes.filter fun a => a.whole.overlaps r

/-- The innermost node around a cursor that lacks its end tag.  A start tag that
the cursor is still inside of does not count. -/
def unclosedAt? (t : Tree) (offset : Nat) : Option Node :=
  (t.pathAt offset).find? fun n => n.isUnclosed && n.startTag.stop ≤ offset

/-- The contents of the closed style elements. -/
def styleContents (t : Tree) : List Span :=
  t.nodes.filterMap fun n => if n.kind = .style then n.content? else none

end Tree
end Markup
end Inlay
