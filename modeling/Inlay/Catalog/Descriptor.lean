import Inlay.Text.Name
import Inlay.Text.Span
import Inlay.Types.Union

/-!
# Descriptors

What is known about tags and about what belongs to them.  Members come in six
categories, and one shape serves all of them: slots, css parts and css
properties have no type of their own, which `any` says.

Two descriptions of one name are merged: their types are joined, the first
description, declaration and tag that are present are kept, and the provenance
of both is listed without repetition.
-/

namespace Inlay

/-- Where knowledge comes from, in the order in which it is merged.  The last
layer holds the base of all elements. -/
inductive Layer where
  | builtIn
  | userConfig
  | discovered
  | extension
  deriving DecidableEq, Inhabited

inductive Category where
  | attributes
  | properties
  | events
  | slots
  | cssParts
  | cssProperties
  deriving DecidableEq, Inhabited

/-- One value for each category. -/
structure Shelf (α : Type) where
  attributes : α
  properties : α
  events : α
  slots : α
  cssParts : α
  cssProperties : α
  deriving DecidableEq, Inhabited

namespace Shelf

def ofFn {α : Type} (f : Category → α) : Shelf α :=
  { attributes := f .attributes, properties := f .properties, events := f .events,
    slots := f .slots, cssParts := f .cssParts, cssProperties := f .cssProperties }

def get {α : Type} (s : Shelf α) : Category → α
  | .attributes => s.attributes
  | .properties => s.properties
  | .events => s.events
  | .slots => s.slots
  | .cssParts => s.cssParts
  | .cssProperties => s.cssProperties

def set {α : Type} (s : Shelf α) (c : Category) (value : α) : Shelf α :=
  match c with
  | .attributes => { s with attributes := value }
  | .properties => { s with properties := value }
  | .events => { s with events := value }
  | .slots => { s with slots := value }
  | .cssParts => { s with cssParts := value }
  | .cssProperties => { s with cssProperties := value }

def map {α β : Type} (f : α → β) (s : Shelf α) : Shelf β := ofFn fun c => f (s.get c)

/-- All values, in the order of the categories. -/
def toList {α : Type} (s : Shelf α) : List α :=
  [s.attributes, s.properties, s.events, s.slots, s.cssParts, s.cssProperties]

@[simp] theorem get_ofFn {α : Type} (f : Category → α) (c : Category) : (ofFn f).get c = f c := by
  cases c <;> rfl

@[simp] theorem get_set_self {α : Type} (s : Shelf α) (c : Category) (value : α) :
    (s.set c value).get c = value := by
  cases c <;> rfl

theorem get_set_ne {α : Type} (s : Shelf α) {c c' : Category} (value : α) (h : c' ≠ c) :
    (s.set c value).get c' = s.get c' := by
  cases c <;> cases c' <;> first | rfl | exact absurd rfl h

end Shelf

/-- A place in host source where something is declared. -/
structure Declaration where
  fileName : String
  span : Span
  deriving DecidableEq, Inhabited

/-- The provenance of a descriptor: its layer, and the tag that it was declared
on, if any. -/
structure Origin where
  layer : Layer
  fromTag : Option String := none
  deriving DecidableEq, Inhabited

/-- Append an origin unless it is listed. -/
def addOrigin (related : List Origin) (origin : Origin) : List Origin :=
  if related.contains origin then related else related ++ [origin]

/-- Append the origins of another descriptor that are not listed. -/
def joinOrigins (related more : List Origin) : List Origin := more.foldl addOrigin related

structure Descriptor where
  name : String
  description : Option String := none
  type : StaticType := .any
  required : Bool := false
  fromTag : Option String := none
  declaration : Option Declaration := none
  related : List Origin := []
  deriving Inhabited

namespace Descriptor

def merge (a b : Descriptor) : Descriptor :=
  { a with
    type := a.type.merge b.type
    required := a.required || b.required
    description := a.description <|> b.description
    declaration := a.declaration <|> b.declaration
    fromTag := a.fromTag <|> b.fromTag
    related := joinOrigins a.related b.related }

/-- List where the descriptor comes from. -/
def stamp (origin : Origin) (d : Descriptor) : Descriptor :=
  { d with related := addOrigin d.related origin }

/-- The descriptor as a member of a tag, unless it says that it is another
tag's. -/
def ofTag (tag : String) (d : Descriptor) : Descriptor :=
  { d with fromTag := d.fromTag <|> some tag }

/-- The type of one of several texts; no texts stand for any text. -/
def textsType (texts : List String) : StaticType :=
  if texts.isEmpty then .string else StaticType.ofTexts texts

end Descriptor

/-- Merge a descriptor into a list: with the first of its name, in any case, or
behind the others. -/
def mergeInto (d : Descriptor) : List Descriptor → List Descriptor
  | [] => [d]
  | e :: rest => if sameName e.name d.name then e.merge d :: rest else e :: mergeInto d rest

def mergeLists (into more : List Descriptor) : List Descriptor :=
  more.foldl (fun ds d => mergeInto d ds) into

/-- What is known about a tag.  It is `declared` when the program declares it. -/
structure Tag where
  name : String
  description : Option String := none
  members : Shelf (List Descriptor) := Shelf.ofFn fun _ => []
  declaration : Option Declaration := none
  isBuiltIn : Bool := false
  isDeclared : Bool := false
  related : List Origin := []
  deriving Inhabited

namespace Tag

def merge (a b : Tag) : Tag :=
  { a with
    members := Shelf.ofFn fun c => mergeLists (a.members.get c) (b.members.get c)
    description := a.description <|> b.description
    declaration := a.declaration <|> b.declaration
    isBuiltIn := a.isBuiltIn || b.isBuiltIn
    isDeclared := a.isDeclared || b.isDeclared
    related := joinOrigins a.related b.related }

/-- Members of this category are said to be the tag's when the tag is
stamped. -/
def owns : Category → Bool
  | .attributes | .properties | .events | .slots => true
  | .cssParts | .cssProperties => false

/-- The tag as an entry of a layer: the tag and all its members list where they
come from. -/
def stamp (layer : Layer) (t : Tag) : Tag :=
  let origin : Origin := { layer := layer, fromTag := some t.name }
  { t with
    members := Shelf.ofFn fun c => (t.members.get c).map fun d =>
      if owns c then (d.stamp origin).ofTag t.name else d.stamp origin
    related := addOrigin t.related origin }

end Tag
end Inlay
