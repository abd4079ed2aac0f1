import Inlay.Catalog.Collection

/-!
# Changes and what they make stale

A change of one layer is described by the names that it touches, and by whether
a touched tag has events, css parts or css properties.  From that a plan tells
which views have to be computed anew.  The plan depends on nothing else, so it
can be examined by itself.
-/

namespace Inlay

structure Change where
  names : Names := {}
  touchesEvents : Bool := false
  touchesCssParts : Bool := false
  touchesCssProperties : Bool := false
  deriving DecidableEq, Inhabited

def anyHas (c : Category) (tags : List Tag) : Bool :=
  tags.any fun t => !(t.members.get c).isEmpty

namespace Change

/-- The change that touches names and whole tags. -/
def ofNames (names : Names) (tags : List Tag) : Change :=
  { names := names, touchesEvents := anyHas .events tags, touchesCssParts := anyHas .cssParts tags,
    touchesCssProperties := anyHas .cssProperties tags }

def ofCollection (c : Collection) : Change := ofNames c.names c.tags

def union (a b : Change) : Change :=
  { names := a.names.append b.names
    touchesEvents := a.touchesEvents || b.touchesEvents
    touchesCssParts := a.touchesCssParts || b.touchesCssParts
    touchesCssProperties := a.touchesCssProperties || b.touchesCssProperties }

/-- Members of the category that belong to all tags, or that are seen from all
tags, are touched. -/
def touches (change : Change) (c : Category) : Bool :=
  !(change.names.globals.get c).isEmpty ||
    match c with
    | .events => change.touchesEvents
    | .cssParts => change.touchesCssParts
    | .cssProperties => change.touchesCssProperties
    | .attributes | .properties | .slots => false

end Change

/-- The views that are to be dropped: those of the tags under some keys, the list
of all tags, and by category the view of the global members and the views of all
tags. -/
structure Plan where
  tags : List String := []
  tagList : Bool := false
  globals : Shelf Bool := Shelf.ofFn fun _ => false
  allTags : Shelf Bool := Shelf.ofFn fun _ => false
  deriving DecidableEq, Inhabited

namespace Plan

def isEmpty (p : Plan) : Bool := p = {}

/-- Every tag inherits members of the category from the base of all elements,
as far as plans are concerned. -/
def inherits : Category → Bool
  | .attributes | .properties | .events | .slots => true
  | .cssParts | .cssProperties => false

/-- What a change makes stale, when the base of all elements has the given
key. -/
def ofChange (change : Change) (extension : Option String) : Plan :=
  let tags := (change.names.tags.map lowerName).eraseDups
  let touchesBase := extension.any tags.contains
  { tags := tags
    tagList := !change.names.tags.isEmpty
    globals := Shelf.ofFn change.touches
    allTags := Shelf.ofFn fun c => change.touches c || (touchesBase && inherits c) }

end Plan
end Inlay
