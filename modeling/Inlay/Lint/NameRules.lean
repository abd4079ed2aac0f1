import Inlay.Lint.Rule

/-!
# Rules about names

These rules look at the names of attributes, properties, events and slots.  A
name is known when the tag has it, whether from its own description, from the
base of all elements, or from the members of every tag.
-/

namespace Inlay

open Markup

/-- The finding for a name that the tag does not have.  `what` is the category
and `mark` writes a name as markup does. -/
def unknownName (what : String) (mark : String → String) (n : Node) (a : Attribute)
    (suggested : Option String) : Finding :=
  { span := a.nameSpan
    message := "Unknown " ++ what ++ " '" ++ a.name ++ "' on <" ++ n.tag ++ ">."
    help := suggested.map (didYouMean mark)
    payload := .unknownTarget a.name suggested }

namespace UnknownAttribute

def info : RuleInfo :=
  { name := "no-unknown-attribute", description := "Disallow unknown attributes"
    usual := .off, strict := .warn }

/-- Attributes for data of the program have any name behind this. -/
def dataMark : String := "data-"

def onAttribute (s : Scene) (n : Node) (a : Attribute) : Consult (List Finding) := do
  if a.binding ≠ .plain ∧ a.binding ≠ .boolean then return []
  if isStartOf dataMark a.lower then return []
  if !(← Consult.hasTag n.tag) then return []
  let attributes ← Consult.members .attributes n.tag
  if attributes.contains a.name then return []
  return [unknownName "attribute" id n a (s.suggest a.lower attributes.names)]

end UnknownAttribute

/-- Attributes are known on their tag, data attributes apart. -/
def unknownAttribute : Rule :=
  { info := UnknownAttribute.info, onAttribute := UnknownAttribute.onAttribute }

namespace UnknownProperty

def info : RuleInfo :=
  { name := "no-unknown-property", description := "Disallow unknown properties"
    usual := .warn, strict := .warn }

def onAttribute (s : Scene) (n : Node) (a : Attribute) : Consult (List Finding) := do
  if a.binding ≠ .property then return []
  if !(← Consult.hasTag n.tag) then return []
  let properties ← Consult.members .properties n.tag
  let attributes ← Consult.members .attributes n.tag
  if properties.contains a.name || attributes.contains a.name then return []
  return [unknownName "property" ("." ++ ·) n a
    (s.suggest a.name (properties.names ++ attributes.names))]

end UnknownProperty

/-- Properties are known on their tag, by themselves or as attributes. -/
def unknownProperty : Rule :=
  { info := UnknownProperty.info, onAttribute := UnknownProperty.onAttribute }

namespace UnknownEvent

def info : RuleInfo :=
  { name := "no-unknown-event", description := "Disallow unknown events"
    usual := .off, strict := .warn }

def onAttribute (s : Scene) (n : Node) (a : Attribute) : Consult (List Finding) := do
  if a.binding ≠ .event then return []
  let events ← Consult.members .events n.tag
  if events.contains a.name then return []
  return [unknownName "event" ("@" ++ ·) n a (s.suggest a.name events.names)]

end UnknownEvent

/-- Events are known on their tag. -/
def unknownEvent : Rule := { info := UnknownEvent.info, onAttribute := UnknownEvent.onAttribute }

namespace UnknownSlot

def info : RuleInfo :=
  { name := "no-unknown-slot", description := "Disallow unknown slot names"
    usual := .warn, strict := .warn }

/-- The tag around a node with the names of its slots, if that is an element
that has any. -/
def parentSlots (s : Scene) (n : Node) : Consult (Option (String × List String)) := do
  match s.tree.parent? n with
  | none => return none
  | some parent =>
    if parent.kind ≠ .element then return none
    let names := (← Consult.members .slots parent.tag).names
    return if names.isEmpty then none else some (parent.tag, names)

/-- A node without a slot attribute goes into the slot without a name. -/
def onNode (s : Scene) (n : Node) : Consult (List Finding) := do
  if n.kind ≠ .element then return []
  if (n.attribute? "slot").isSome then return []
  match ← parentSlots s n with
  | none => return []
  | some (parent, names) =>
    if names.contains "" then return []
    return [{
      span := n.nameSpan
      message := "Elements inside <" ++ parent ++ "> must be assigned to a named slot."
      help := some ("Add a slot attribute. Valid slot names are " ++ quotedNames names ++ ".")
      payload := .invalidSlot names }]

/-- The name that a slot attribute gives, unless that is computed. -/
def staticSlot? (a : Attribute) : Option String :=
  match a.assignment with
  | none => some ""
  | some assignment =>
    match assignment.value with
    | .text text => some text
    | .presence => some ""
    | .expression _ | .mixed _ => none

def onAttribute (s : Scene) (n : Node) (a : Attribute) : Consult (List Finding) := do
  if a.binding ≠ .plain ∧ a.binding ≠ .boolean then return []
  if a.lower ≠ "slot" then return []
  match staticSlot? a with
  | none => return []
  | some slot =>
    match ← parentSlots s n with
    | none => return []
    | some (_, names) =>
      if names.contains slot then return []
      return [{
        span := a.whole
        message := "Invalid slot name '" ++ slot ++ "'. Valid slot names are " ++
          quotedNames names ++ "."
        payload := .invalidSlot names }]

end UnknownSlot

/-- Children go into slots that their parent has.  Slot names distinguish
case. -/
def unknownSlot : Rule :=
  { info := UnknownSlot.info, onNode := UnknownSlot.onNode, onAttribute := UnknownSlot.onAttribute }

end Inlay
