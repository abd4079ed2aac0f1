import Inlay.Catalog.Collection
import Inlay.Catalog.NameMap

/-!
# Layers of knowledge

A store holds the raw entries of one layer.  Absorbing a collection replaces
entries of the same name, so that absorbing it again changes nothing; forgetting
takes entries out by name.  `Layers` holds the four stores.
-/

namespace Inlay

structure Store where
  tags : NameMap Tag := {}
  globals : Shelf (NameMap Descriptor) := Shelf.ofFn fun _ => {}
  deriving Inhabited

namespace Store

/-- Put tags in, and collect those that they replace. -/
def putTags (layer : Layer) (m : NameMap Tag) : List Tag → List Tag × NameMap Tag
  | [] => ([], m)
  | t :: rest =>
    let (old, m) := m.insertReplace (t.stamp layer)
    let (replaced, m) := putTags layer m rest
    (old.toList ++ replaced, m)

/-- Take tags out, and collect those that were there. -/
def takeTags (m : NameMap Tag) : List String → List Tag × NameMap Tag
  | [] => ([], m)
  | name :: rest =>
    let (old, m) := m.remove name
    let (removed, m) := takeTags m rest
    (old.toList ++ removed, m)

/-- Put the entries of a collection in.  The first part of the answer are the
tags that were replaced. -/
def absorb (s : Store) (layer : Layer) (c : Collection) : List Tag × Store :=
  let (replaced, tags) := putTags layer s.tags c.tags
  let globals := Shelf.ofFn fun k =>
    (s.globals.get k).replaceAll ((c.globals.get k).map (Descriptor.stamp { layer := layer }))
  (replaced, { tags := tags, globals := globals })

/-- Take entries out.  The first part of the answer are the tags that were
there. -/
def forget (s : Store) (names : Names) : List Tag × Store :=
  let (removed, tags) := takeTags s.tags names.tags
  let globals := Shelf.ofFn fun k => (s.globals.get k).removeAll (names.globals.get k)
  (removed, { tags := tags, globals := globals })

end Store

structure Layers where
  builtIn : Store := {}
  userConfig : Store := {}
  discovered : Store := {}
  extension : Store := {}
  deriving Inhabited

namespace Layers

def get (ls : Layers) : Layer → Store
  | .builtIn => ls.builtIn
  | .userConfig => ls.userConfig
  | .discovered => ls.discovered
  | .extension => ls.extension

def set (ls : Layers) (layer : Layer) (s : Store) : Layers :=
  match layer with
  | .builtIn => { ls with builtIn := s }
  | .userConfig => { ls with userConfig := s }
  | .discovered => { ls with discovered := s }
  | .extension => { ls with extension := s }

/-- The stores in the order in which they are merged. -/
def toList (ls : Layers) : List Store :=
  [ls.builtIn, ls.userConfig, ls.discovered, ls.extension]

def joinTags : List Tag → Option Tag
  | [] => none
  | t :: rest => some (rest.foldl Tag.merge t)

/-- The tag under a key, joined across the layers. -/
def tag? (ls : Layers) (key : String) : Option Tag :=
  joinTags (ls.toList.filterMap fun s => s.tags.find? key)

/-- The names of all tags but one, each as the first layer that has it writes
it. -/
def tagNames (ls : Layers) (except : Option String) : List String :=
  let tags := ls.toList.flatMap fun s => s.tags.values
  let others := tags.filter fun t => except != some (lowerName t.name)
  (NameMap.empty.fillWith others).names

/-- The members of a category that belong to every tag, joined across the
layers. -/
def globals (ls : Layers) (c : Category) : NameMap Descriptor :=
  NameMap.empty.mergeAll (ls.toList.flatMap fun s => (s.globals.get c).values)

end Layers
end Inlay
