import Inlay.Catalog.Collection

/-!
# Components

Which components a host file declares is found out by a collaborator.  What it
reports becomes knowledge here: every definition is a tag, and a property that an
attribute reflects is a property and an attribute.
-/

namespace Inlay

/-- Whether a member is set as an attribute or as a property. -/
inductive Target where
  | asAttribute
  | asProperty
  deriving DecidableEq, Inhabited

/-- A member of a component.  `reflected` names the attribute that reflects a
property. -/
structure ComponentMember where
  name : String
  target : Target := .asProperty
  type : StaticType
  required : Bool := false
  reflected : Option String := none
  description : Option String := none
  declaration : Option Declaration := none
  deriving Inhabited

structure ComponentEvent where
  name : String
  type : StaticType
  description : Option String := none
  deriving Inhabited

structure ComponentSlot where
  name : String
  description : Option String := none
  deriving DecidableEq, Inhabited

/-- A component as its host file declares it. -/
structure Definition where
  tag : String
  declaration : Declaration
  description : Option String := none
  members : List ComponentMember := []
  events : List ComponentEvent := []
  slots : List ComponentSlot := []
  cssParts : List String := []
  cssProperties : List String := []
  deriving Inhabited

/-- Something that is wrong with the declarations of a file. -/
structure DiscoveryProblem where
  fileName : String
  span : Span
  message : String
  deriving DecidableEq, Inhabited

/-- What a file is reported to declare. -/
structure Discovery where
  definitions : List Definition := []
  problems : List DiscoveryProblem := []
  deriving Inhabited

namespace ComponentMember

/-- The member as a descriptor under a name. -/
def describe (m : ComponentMember) (name : String) : Descriptor :=
  { name := name, type := m.type, required := m.required, description := m.description,
    declaration := m.declaration }

def attribute? (m : ComponentMember) : Option Descriptor :=
  match m.target with
  | .asAttribute => some (m.describe m.name)
  | .asProperty => m.reflected.map m.describe

def property? (m : ComponentMember) : Option Descriptor :=
  match m.target with
  | .asAttribute => none
  | .asProperty => some (m.describe m.name)

end ComponentMember

namespace Definition

def toTag (d : Definition) : Tag :=
  { name := d.tag, description := d.description, declaration := some d.declaration,
    isDeclared := true
    members :=
      { attributes := d.members.filterMap ComponentMember.attribute?
        properties := d.members.filterMap ComponentMember.property?
        events := d.events.map fun e =>
          { name := e.name, type := e.type, description := e.description }
        slots := d.slots.map fun s => { name := s.name, description := s.description }
        cssParts := d.cssParts.map fun n => { name := n }
        cssProperties := d.cssProperties.map fun n => { name := n } } }

def collection (ds : List Definition) : Collection := { tags := ds.map toTag }

def names (ds : List Definition) : Names := { tags := ds.map fun d => lowerName d.tag }

end Definition
end Inlay
