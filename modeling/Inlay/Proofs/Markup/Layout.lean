import Inlay.Markup.Arena
import Inlay.Proofs.Markup.Numbering

/-!
# Layout

How an arena holds a tree, and a tree in the making: the entries of nodes stand in document
order, each with the numbers of its children.  The last child of an open node is the node that is
open inside it, so what is open forms a chain.  `frameEntries` and `outermost` follow it
from the inside out.

Moving an element into the frame around it leaves the layout as it is: `frameEntries_add`.
-/

namespace Inlay
namespace Markup

/-- The entry of a node with the numbers of its children. -/
def NodeEntry.ofNode (n : Node) (children : List Nat) : NodeEntry :=
  { id := n.id, tag := n.tag, kind := n.kind, whole := n.whole, nameSpan := n.nameSpan,
    startTag := n.startTag, endTag := n.endTag, attributes := n.attributes.map (·.id),
    children := children, parent := n.parent, selfClosed := n.selfClosed }

def AttributeEntry.ofAttribute (a : Attribute) : AttributeEntry :=
  { id := a.id, node := a.node, name := a.name, binding := a.binding, whole := a.whole,
    nameSpan := a.nameSpan, assignment := a.assignment.map (·.id) }

def idsOf (es : List Element) : List Nat := es.map fun e => e.node.id

mutual
/-- The entries of an element and of all that is in it. -/
def Element.entries : Element → List NodeEntry
  | .mk n cs => .ofNode n (idsOf cs) :: entriesOf cs

def entriesOf : List Element → List NodeEntry
  | [] => []
  | e :: es => e.entries ++ entriesOf es
end

/-- The entries of frames and of what is complete in them, the outermost frame first, when the
node `inner` is open inside the innermost one. -/
def frameEntries (inner : Option Nat) : List Frame → List NodeEntry
  | [] => []
  | f :: outer =>
    frameEntries (some f.node.id) outer ++
      .ofNode f.node (idsOf f.done.reverse ++ inner.toList) :: entriesOf f.done.reverse

/-- The outermost of the frames, or the node that is open inside them if there are none. -/
def outermost (inner : Option Nat) : List Frame → Option Nat
  | [] => inner
  | f :: outer => outermost (some f.node.id) outer

/-! ## Entries -/

section Entries

variable {e : Element} {es fs : List Element}

theorem entriesOf_append (es fs : List Element) :
    entriesOf (es ++ fs) = entriesOf es ++ entriesOf fs := by
  induction es with
  | nil => rw [entriesOf, List.nil_append, List.nil_append]
  | cons e rest ih => rw [List.cons_append, entriesOf, entriesOf, ih, List.append_assoc]

theorem idsOf_reverse_cons (e : Element) (es : List Element) :
    idsOf (e :: es).reverse = idsOf es.reverse ++ [e.node.id] := by
  rw [List.reverse_cons, idsOf, List.map_append]
  rfl

theorem entriesOf_reverse_cons (e : Element) (es : List Element) :
    entriesOf (e :: es).reverse = entriesOf es.reverse ++ e.entries := by
  rw [List.reverse_cons, entriesOf_append, entriesOf, entriesOf, List.append_nil]

theorem entries_leaf (n : Node) : (Element.mk n []).entries = [.ofNode n []] := by
  rw [Element.entries, entriesOf]
  rfl

mutual
theorem ids_entries : ∀ e : Element, e.entries.map (·.id) = e.walk.map (·.id)
  | .mk n cs => by
    rw [Element.entries, Element.walk, List.map_cons, List.map_cons, ids_entriesOf cs]
    rfl

theorem ids_entriesOf : ∀ es : List Element,
    (entriesOf es).map (·.id) = (walkAll es).map (·.id)
  | [] => by rw [entriesOf, walkAll, List.map_nil, List.map_nil]
  | e :: es => by
    rw [entriesOf, walkAll, List.map_append, List.map_append, ids_entries e, ids_entriesOf es]
end

end Entries

/-! ## Frames -/

section Frames

variable {inner : Option Nat} {f : Frame} {fs outer : List Frame} {e : Element}

/-- A frame that nothing is open in is laid out like the element that it is. -/
theorem frameEntries_none (f : Frame) (outer : List Frame) :
    frameEntries none (f :: outer) =
      frameEntries (some f.node.id) outer ++ f.toElement.entries := by
  rw [frameEntries, Option.toList_none, List.append_nil, Frame.toElement, Element.entries]

/-- An element that comes to a frame stands where it stood while it was open in that frame. -/
theorem frameEntries_add (f : Frame) (e : Element) (outer : List Frame) :
    frameEntries none (f.add e :: outer) =
      frameEntries (some e.node.id) (f :: outer) ++ e.entries := by
  rw [frameEntries, frameEntries, Frame.add, idsOf_reverse_cons, entriesOf_reverse_cons]
  simp only [Option.toList_none, Option.toList_some, List.append_nil, List.append_assoc,
    List.cons_append]

theorem frameEntries_append (inner : Option Nat) (fs outer : List Frame) :
    frameEntries inner (fs ++ outer) =
      frameEntries (outermost inner fs) outer ++ frameEntries inner fs := by
  induction fs generalizing inner with
  | nil => rw [List.nil_append, outermost, frameEntries, List.append_nil]
  | cons f rest ih =>
    rw [List.cons_append, frameEntries, ih, outermost, frameEntries, List.append_assoc]

theorem outermost_append (inner : Option Nat) (fs : List Frame) (f : Frame)
    (outer : List Frame) :
    outermost inner (fs ++ f :: outer) = outermost (some f.node.id) outer := by
  induction fs generalizing inner with
  | nil => rfl
  | cons g rest ih => exact ih (some g.node.id)

/-- Where frames end shows only in the ranges of their nodes. -/
theorem outermost_endAt (inner : Option Nat) (fs : List Frame) (stop : Nat) :
    outermost inner (fs.map (·.endAt stop)) = outermost inner fs := by
  induction fs generalizing inner with
  | nil => rfl
  | cons f rest ih => exact ih (some f.node.id)

theorem length_frameEntries_endAt (inner : Option Nat) (fs : List Frame) (stop : Nat) :
    (frameEntries inner (fs.map (·.endAt stop))).length = (frameEntries inner fs).length := by
  induction fs generalizing inner with
  | nil => rfl
  | cons f rest ih =>
    have hrest := ih (some f.node.id)
    simp only [List.map_cons, frameEntries, List.length_append, List.length_cons]
    exact congrArg₂ (· + ·) hrest rfl

/-- Where all frames become elements that end at `stop`, they stay where they are. -/
theorem entriesOf_closeAll (stop : Nat) (roots : List Element) (fs : List Frame) :
    entriesOf (Builder.closeAll stop roots fs).reverse =
        entriesOf roots.reverse ++ frameEntries none (fs.map (·.endAt stop)) ∧
      idsOf (Builder.closeAll stop roots fs).reverse =
        idsOf roots.reverse ++ (outermost none fs).toList := by
  fun_induction Builder.closeAll stop roots fs with
  | case1 =>
    rw [List.map_nil, frameEntries, outermost, List.append_nil, Option.toList_none, List.append_nil]
    exact ⟨rfl, rfl⟩
  | case2 f =>
    rw [entriesOf_reverse_cons, idsOf_reverse_cons, List.map_singleton, frameEntries_none,
      frameEntries, List.nil_append]
    exact ⟨rfl, rfl⟩
  | case3 f g outer ih =>
    have hadd := frameEntries_add (g.endAt stop) (f.endAt stop).toElement
      (outer.map (·.endAt stop))
    rw [ih.1, ih.2]
    refine ⟨congrArg _ (hadd.trans ?_), rfl⟩
    rw [List.map_cons, List.map_cons, frameEntries_none (f.endAt stop)]
    rfl

end Frames

end Markup
end Inlay
