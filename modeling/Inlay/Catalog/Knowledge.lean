import Inlay.Catalog.Change
import Inlay.Catalog.Store

/-!
# The knowledge base

`Knowledge` holds the four layers, the key of the tag that every element
extends, and a memo of the views that have been asked for.

Every view has two sides.  The first, in the namespace `Layers`, computes it from
the layers alone.  The second, in the namespace `Knowledge`, reads it from the
memo if it is there, and otherwise computes it from the views below it.  Reading
changes nothing; `Knowledge.record` puts a view, and the views that it is made
of, into the memo, and every change of a layer drops what its plan names.
-/

namespace Inlay

/-! ## Views of the layers -/

def Category.isInherited : Category → Bool
  | .slots => false
  | _ => true

/-- The members that an entry for a tag has. -/
def membersOf (t : Option Tag) (c : Category) : List Descriptor :=
  match t with
  | some t => t.members.get c
  | none => []

/-- The members that can be used on a tag without looking at other tags: its own,
those of the base of all elements, and those that belong to every tag. -/
def joined (c : Category) (own base : Option Tag) (globals : NameMap Descriptor) :
    NameMap Descriptor :=
  let inherited := if c.isInherited then membersOf base c else []
  NameMap.empty.mergeAll (membersOf own c ++ inherited ++ globals.values)

/-- Events bubble, so a tag that has none of its own also sees those of all other
tags. -/
def seesOthers (c : Category) (own : Option Tag) : Bool :=
  c = .events && (membersOf own c).isEmpty

def membersOfAll (c : Category) (tags : List Tag) : List Descriptor :=
  tags.flatMap fun t => t.members.get c

namespace Layers

/-- All tags but the base of all elements. -/
def tags (ls : Layers) (extension : Option String) : List Tag :=
  (ls.tagNames extension).filterMap fun name => ls.tag? (lowerName name)

/-- The members of a category that can be used on the tag under a key. -/
def members (ls : Layers) (extension : Option String) (c : Category) (key : String) :
    NameMap Descriptor :=
  let own := ls.tag? key
  let m := joined c own (extension.bind ls.tag?) (ls.globals c)
  if seesOthers c own then m.fillWith (membersOfAll c (ls.tags extension)) else m

end Layers

/-! ## The memo -/

/-- The views that have been computed.  A tag that is not known is remembered as
such. -/
structure Memo where
  tags : List (String × Option Tag) := []
  tagList : Option (List Tag) := none
  globals : Shelf (Option (NameMap Descriptor)) := Shelf.ofFn fun _ => none
  members : Shelf (List (String × NameMap Descriptor)) := Shelf.ofFn fun _ => []
  deriving Inhabited

namespace Memo

def without {α : Type} (keys : List String) (entries : List (String × α)) : List (String × α) :=
  entries.filter fun e => !keys.contains e.1

def apply (m : Memo) (p : Plan) : Memo :=
  { tags := without p.tags m.tags
    tagList := if p.tagList then none else m.tagList
    globals := Shelf.ofFn fun c => if p.globals.get c then none else m.globals.get c
    members := Shelf.ofFn fun c =>
      if p.allTags.get c then [] else without p.tags (m.members.get c) }

end Memo

/-- What can be asked of the knowledge base.  Tags are given by key. -/
inductive Question where
  | tag (key : String)
  | tags
  | globals (c : Category)
  | members (c : Category) (key : String)
  deriving DecidableEq, Inhabited

structure Knowledge where
  layers : Layers := {}
  extension : Option String := some "htmlelement"
  memo : Memo := {}
  deriving Inhabited

namespace Knowledge

/-! ## Reading -/

/-- The tag under a key, joined across the layers. -/
def tagAt? (kb : Knowledge) (key : String) : Option Tag :=
  match kb.memo.tags.lookup key with
  | some t => t
  | none => kb.layers.tag? key

/-- The tag with a name, in any case. -/
def tag? (kb : Knowledge) (name : String) : Option Tag := kb.tagAt? (lowerName name)

/-- The tag is known, and not merely the base of all elements. -/
def hasTag (kb : Knowledge) (name : String) : Bool :=
  kb.extension != some (lowerName name) && (kb.tag? name).isSome

/-- All tags but the base of all elements, in the order in which the layers name
them first. -/
def tags (kb : Knowledge) : List Tag :=
  match kb.memo.tagList with
  | some ts => ts
  | none => (kb.layers.tagNames kb.extension).filterMap kb.tag?

def base? (kb : Knowledge) : Option Tag := kb.extension.bind kb.tag?

def globals (kb : Knowledge) (c : Category) : NameMap Descriptor :=
  match kb.memo.globals.get c with
  | some m => m
  | none => kb.layers.globals c

def membersAt (kb : Knowledge) (c : Category) (key : String) : NameMap Descriptor :=
  match (kb.memo.members.get c).lookup key with
  | some m => m
  | none =>
    let own := kb.tagAt? key
    let m := joined c own kb.base? (kb.globals c)
    if seesOthers c own then m.fillWith (membersOfAll c kb.tags) else m

/-- The members of a category that can be used on a tag. -/
def members (kb : Knowledge) (c : Category) (tag : String) : NameMap Descriptor :=
  kb.membersAt c (lowerName tag)

def member? (kb : Knowledge) (c : Category) (tag name : String) : Option Descriptor :=
  (kb.members c tag).get? name

/-! ## Recording -/

def recordTag (kb : Knowledge) (key : String) : Knowledge :=
  if (kb.memo.tags.lookup key).isSome then kb
  else { kb with memo := { kb.memo with tags := (key, kb.layers.tag? key) :: kb.memo.tags } }

def recordTags (kb : Knowledge) : Knowledge :=
  match kb.memo.tagList with
  | some _ => kb
  | none =>
    let names := kb.layers.tagNames kb.extension
    let kb := (names.map lowerName).foldl recordTag kb
    { kb with memo := { kb.memo with tagList := some (names.filterMap kb.tag?) } }

def recordGlobals (kb : Knowledge) (c : Category) : Knowledge :=
  { kb with memo := { kb.memo with globals := kb.memo.globals.set c (some (kb.globals c)) } }

def recordBase (kb : Knowledge) : Knowledge :=
  match kb.extension with
  | some name => kb.recordTag (lowerName name)
  | none => kb

def recordMembers (kb : Knowledge) (c : Category) (key : String) : Knowledge :=
  if ((kb.memo.members.get c).lookup key).isSome then kb
  else
    let kb := kb.recordTag key
    let kb := if c.isInherited then kb.recordBase else kb
    let kb := kb.recordGlobals c
    let kb := if seesOthers c (kb.tagAt? key) then kb.recordTags else kb
    { kb with
      memo := { kb.memo with
        members := kb.memo.members.set c
          ((key, kb.membersAt c key) :: kb.memo.members.get c) } }

/-- Keep the view that a question asks for, and those that it is made of. -/
def record (kb : Knowledge) : Question → Knowledge
  | .tag key => kb.recordTag key
  | .tags => kb.recordTags
  | .globals c => kb.recordGlobals c
  | .members c key => kb.recordMembers c key

/-! ## Changing -/

def apply (kb : Knowledge) (p : Plan) : Knowledge :=
  if p.isEmpty then kb else { kb with memo := kb.memo.apply p }

def invalidate (kb : Knowledge) (change : Change) : Knowledge :=
  kb.apply (Plan.ofChange change kb.extension)

/-- Put a collection into a layer.  Tags that it replaces count as touched. -/
def absorb (kb : Knowledge) (layer : Layer) (c : Collection) : Knowledge :=
  if c.isEmpty then kb
  else
    let (replaced, store) := (kb.layers.get layer).absorb layer c
    { kb with layers := kb.layers.set layer store }.invalidate
      ((Change.ofCollection c).union (Change.ofNames {} replaced))

def forget (kb : Knowledge) (layer : Layer) (names : Names) : Knowledge :=
  let (removed, store) := (kb.layers.get layer).forget names
  { kb with layers := kb.layers.set layer store }.invalidate (Change.ofNames names removed)

def clearLayer (kb : Knowledge) (layer : Layer) : Knowledge :=
  { kb with layers := kb.layers.set layer {}, memo := {} }

/-- Choose the tag that every element extends, or none. -/
def setExtension (kb : Knowledge) (name : Option String) : Knowledge :=
  { kb with extension := name.map lowerName, memo := {} }

/-- The knowledge base without its memo. -/
def fresh (kb : Knowledge) : Knowledge := { kb with memo := {} }

end Knowledge
end Inlay
