import Inlay.Catalog.Descriptor

/-!
# Collections

A collection is knowledge on its way into a layer: tags, and members that belong
to every tag.  `Names` addresses entries of a layer, to take them out again.
-/

namespace Inlay

structure Collection where
  tags : List Tag := []
  globals : Shelf (List Descriptor) := Shelf.ofFn fun _ => []
  deriving Inhabited

/-- Names of tags, and of members that belong to every tag. -/
structure Names where
  tags : List String := []
  globals : Shelf (List String) := Shelf.ofFn fun _ => []
  deriving DecidableEq, Inhabited

namespace Names

def append (a b : Names) : Names :=
  { tags := a.tags ++ b.tags
    globals := Shelf.ofFn fun c => a.globals.get c ++ b.globals.get c }

end Names

namespace Collection

def isEmpty (c : Collection) : Bool :=
  c.tags.isEmpty && c.globals.toList.all List.isEmpty

def append (a b : Collection) : Collection :=
  { tags := a.tags ++ b.tags
    globals := Shelf.ofFn fun c => a.globals.get c ++ b.globals.get c }

/-- The names of everything in the collection, in lower case. -/
def names (c : Collection) : Names :=
  { tags := c.tags.map fun t => lowerName t.name
    globals := c.globals.map fun ds => ds.map fun d => lowerName d.name }

end Collection
end Inlay
