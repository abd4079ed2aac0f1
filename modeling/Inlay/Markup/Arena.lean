import Inlay.Markup.Lookup

/-!
# Arenas

An arena holds a tree in three lists.  Nodes, attributes and assignments stand at the places
that are their numbers, and refer to each other by them.

A `Writer` reads a document into an arena.  What is open is a stack of numbers; a node
is put down when its tag begins, linked to the node around it, and changed in its place
when a tag ends.  `Tree.ofDocument` makes the same tree from its parts.
-/

namespace Inlay
namespace Markup

/-- A node in an arena. -/
structure NodeEntry where
  id : Nat := 0
  tag : String
  kind : Kind
  whole : Span
  nameSpan : Span
  startTag : Span
  endTag : Option Span := none
  attributes : List Nat := []
  children : List Nat := []
  parent : Option Nat := none
  selfClosed : Bool := false
  deriving DecidableEq, Inhabited

/-- An attribute in an arena. -/
structure AttributeEntry where
  id : Nat := 0
  node : Nat
  name : String
  binding : Binding
  whole : Span
  nameSpan : Span
  assignment : Option Nat := none
  deriving DecidableEq, Inhabited

structure Arena where
  nodes : List NodeEntry := []
  attributes : List AttributeEntry := []
  assignments : List Assignment := []
  roots : List Nat := []
  problems : List Problem := []
  deriving DecidableEq, Inhabited

namespace NodeEntry

def isVoid (n : NodeEntry) : Bool := isVoidTag n.tag

def isUnclosed (n : NodeEntry) : Bool := n.endTag.isNone && !n.selfClosed && !n.isVoid

/-- The node with its start tag, and so far all of it, ending at `stop`. -/
def endStartTag (n : NodeEntry) (stop : Nat) : NodeEntry :=
  { n with startTag := { n.startTag with stop := stop }, whole := { n.whole with stop := stop } }

/-- The node ending at `stop`. -/
def endAt (n : NodeEntry) (stop : Nat) : NodeEntry :=
  { n with whole := { n.whole with stop := stop } }

/-- The node with its end tag. -/
def closedBy (n : NodeEntry) (tag : Span) : NodeEntry :=
  { n.endAt tag.stop with endTag := some tag }

end NodeEntry

namespace Arena

def node? (a : Arena) (id : Nat) : Option NodeEntry := a.nodes[id]?

/-- Change a node in its place. -/
def update (a : Arena) (id : Nat) (change : NodeEntry → NodeEntry) : Arena :=
  { a with nodes := a.nodes.modify id change }

/-- Put a node down, and link it to its parent or among the roots. -/
def pushNode (a : Arena) (n : NodeEntry) : Arena × Nat :=
  let id := a.nodes.length
  let linked :=
    match n.parent with
    | some parent => a.update parent fun p => { p with children := p.children ++ [id] }
    | none => { a with roots := a.roots ++ [id] }
  ({ linked with nodes := linked.nodes ++ [{ n with id := id }] }, id)

/-- Put an attribute down, and link it to its node. -/
def pushAttribute (a : Arena) (entry : AttributeEntry) : Arena × Nat :=
  let id := a.attributes.length
  let linked := a.update entry.node fun n => { n with attributes := n.attributes ++ [id] }
  ({ linked with attributes := linked.attributes ++ [{ entry with id := id }] }, id)

/-- Put an assignment down, and link it to the attribute that owns it. -/
def pushAssignment (a : Arena) (entry : Assignment) : Arena × Nat :=
  let id := a.assignments.length
  let attributes := a.attributes.modify entry.owner fun t => { t with assignment := some id }
  ({ a with attributes := attributes, assignments := a.assignments ++ [{ entry with id := id }] },
    id)

def report (a : Arena) (mistake : Mistake) (start stop : Nat) : Arena :=
  { a with problems := a.problems ++ [{ mistake := mistake, span := Span.of start stop }] }

/-! ## Lookups -/

def childrenOf (a : Arena) (id : Nat) : List Nat := ((a.node? id).map (·.children)).getD []

/-- The nodes in the order in which they are taken from a stack, at most `steps` of them.  The
children of a node come onto the stack in its place. -/
def walkFrom (a : Arena) : Nat → List Nat → List Nat
  | _, [] => []
  | 0, _ => []
  | steps + 1, id :: stack => id :: a.walkFrom steps (a.childrenOf id ++ stack)

/-- All nodes, each before its children. -/
def walk (a : Arena) : List Nat := a.walkFrom a.nodes.length a.roots

def touches (a : Arena) (offset id : Nat) : Bool :=
  (a.node? id).any fun n => n.whole.touches offset

/-- Enter the first of the candidates that a cursor touches, at most `steps` times one inside
the other. -/
def descend (a : Arena) (offset : Nat) : Nat → List Nat → Option Nat → Option Nat
  | 0, _, found => found
  | steps + 1, candidates, found =>
    match candidates.find? (a.touches offset) with
    | some id => a.descend offset steps (a.childrenOf id) (some id)
    | none => found

/-- The innermost node that a cursor touches. -/
def nodeAt? (a : Arena) (offset : Nat) : Option Nat := a.descend offset a.nodes.length a.roots none

/-- The first node on the way to the root that lacks its end tag, among at most `steps`.  A start
tag that the cursor is still inside of does not count. -/
def climb (a : Arena) (offset : Nat) : Nat → Option Nat → Option Nat
  | _, none => none
  | 0, _ => none
  | steps + 1, some id =>
    match a.node? id with
    | some n =>
      if n.isUnclosed && n.startTag.stop ≤ offset then some id else a.climb offset steps n.parent
    | none => none

def unclosedAt? (a : Arena) (offset : Nat) : Option Nat :=
  a.climb offset a.nodes.length (a.nodeAt? offset)

end Arena

/-- An arena that is being written.  The stack holds the open nodes, the innermost first;
`current` is the node whose start tag is being read. -/
structure Writer where
  arena : Arena := {}
  stack : List Nat := []
  current : Option Nat := none
  pending : Option Pending := none
  deriving DecidableEq, Inhabited

namespace Writer

/-- Begin a node with a name right behind its bracket, inside the innermost open one. -/
def openNode (w : Writer) (text : String) (name : Span) : Writer :=
  let tag := name.sliceD text
  let parent := w.stack.head?
  let startTag := Span.of (name.start - 1) name.stop
  let (arena, id) := w.arena.pushNode
    { tag := tag, kind := Kind.of ((parent.bind w.arena.node?).map (·.kind)) tag,
      whole := startTag, nameSpan := name, startTag := startTag, parent := parent }
  { w with arena := arena, current := some id }

/-- End the current start tag.  Void and self-closed elements are complete with it; any other
is open from here on. -/
def endStartTag (w : Writer) (stop : Nat) (selfClosed : Bool) : Writer :=
  match w.current with
  | none => w
  | some id =>
    let arena := w.arena.update id fun n =>
      { n.endStartTag stop with selfClosed := selfClosed }
    let w := { w with arena := arena, current := none }
    if selfClosed || (arena.node? id).any NodeEntry.isVoid then w
    else { w with stack := id :: w.stack }

/-- Close the innermost open node with the name of an end tag.  Nodes inside it end where the
end tag begins. -/
def closeNode (w : Writer) (text : String) (tag name : Span) : Writer :=
  let named (id : Nat) : Bool :=
    (w.arena.node? id).any fun n => sameName n.tag (name.sliceD text)
  match w.stack.findIdx? named with
  | none => { w with arena := w.arena.report .strayEndTag tag.start tag.stop }
  | some i =>
    let arena := (w.stack.take i).foldr (fun id a => a.update id (·.endAt tag.start)) w.arena
    match w.stack.drop i with
    | [] => { w with arena := arena, stack := [] }
    | id :: outer => { w with arena := arena.update id (·.closedBy tag), stack := outer }

/-- Give the current node an attribute.  A name that is empty behind its modifier, or that is
only a hole, is no attribute. -/
def addAttribute (w : Writer) (d : Document) (text : String) (p : Pending) (quote : Quote)
    (stop : Nat) : Writer :=
  match w.current with
  | none => w
  | some node =>
    let (binding, nameSpan) := splitModifier text p.name
    if nameSpan.isEmpty || isCoveredByHole d nameSpan then w
    else
      let (arena, id) := w.arena.pushAttribute
        { node := node, name := nameSpan.sliceD text, binding := binding,
          whole := Span.of p.name.start (attributeStop quote stop), nameSpan := nameSpan }
      match assigned? d text p quote stop with
      | none => { w with arena := arena }
      | some (value, span) =>
        { w with
          arena := (arena.pushAssignment { id := 0, owner := id, value := value, span := span }).1 }

/-- End everything that is open where the text ends. -/
def finish (w : Writer) (stop : Nat) : Writer :=
  let arena :=
    match w.current with
    | some id => w.arena.update id (·.endStartTag stop)
    | none => w.arena
  { w with
    arena := w.stack.foldr (fun id a => a.update id (·.endAt stop)) arena
    stack := [], current := none }

/-- Read a token of the text of a document. -/
def read (d : Document) (text : String) (w : Writer) : Token → Writer
  | .text _ _ | .comment _ _ => w
  | .openName start stop => w.openNode text (Span.of start stop)
  | .openEnd bracket => w.endStartTag (bracket + 1) false
  | .selfClose bracket => w.endStartTag (bracket + 1) true
  | .close start nameStart nameStop stop =>
    w.closeNode text (Span.of start stop) (Span.of nameStart nameStop)
  | .attributeName start stop => { w with pending := some { name := Span.of start stop } }
  | .attributeValue start stop =>
    { w with pending := w.pending.map fun p => { p with value := some (Span.of start stop) } }
  | .attributeEnd quote stop =>
    match w.pending with
    | some p => { w with pending := none }.addAttribute d text p quote stop
    | none => w
  | .mistake kind index => { w with arena := w.arena.report kind index index }
  | .finish => w.finish text.utf8ByteSize

end Writer

/-- The arena that a document is read into. -/
def Arena.ofDocument (d : Document) : Arena :=
  let text := d.text
  ((tokens text).foldl (Writer.read d text) {}).arena

end Markup
end Inlay
