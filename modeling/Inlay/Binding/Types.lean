import Inlay.Binding.Directive
import Inlay.Catalog.Consult
import Inlay.Markup.Tree

/-!
# Types of bindings

An attribute binds a value to a target.  The target is the member of the tag
that the attribute names; a property also falls back to an attribute of its
name.  The value is what the assignment writes, or what the directive in it
renders.

The types of a document's bindings are kept in a memo under the numbers of their
assignments, for as long as the document lives.
-/

namespace Inlay

open Markup

/-- What is known of a binding.  The target is `any` when it is not found; the
raw type is that of the value as it is written. -/
structure BindingTypes where
  target : StaticType
  isFound : Bool
  value : StaticType
  raw : StaticType
  directive : Option Directive
  deriving Inhabited

/-- The types that have been computed, by the number of the assignment. -/
abbrev BindingMemo := List (Nat × BindingTypes)

namespace BindingTypes

/-- The member of a tag that an attribute binds to, with its category. -/
def member? (tag : String) (a : Attribute) : Consult (Option (Category × Descriptor)) := do
  let find (c : Category) := return (← Consult.member? c tag a.name).map fun d => (c, d)
  match a.binding with
  | .plain | .boolean => find .attributes
  | .event => find .events
  | .property =>
    match ← find .properties with
    | some found => return some found
    | none => find .attributes

/-- The type of a value as it is written.  A mixed value is a text, but a
listener stays the expression in it. -/
def rawType (typeOf : HostExpression → StaticType) (binding : Binding) : Value → StaticType
  | .presence => .booleanLiteral true
  | .text text => .stringLiteral text
  | .expression hole => typeOf hole.expression
  | .mixed segments =>
    match binding, Value.firstHole? segments with
    | .event, some hole => typeOf hole.expression
    | _, _ => .string

def directive? (typeOf : HostExpression → StaticType) (raw : StaticType) :
    Value → Option Directive
  | .expression hole => Directive.ofHole? typeOf hole raw
  | _ => none

def ofTarget (typeOf : HostExpression → StaticType) (found : Option Descriptor)
    (binding : Binding) (value : Value) : BindingTypes :=
  let raw := rawType typeOf binding value
  let directive := directive? typeOf raw value
  { target := (found.map (·.type)).getD .any, isFound := found.isSome,
    value := (directive.bind (·.rendered)).getD raw, raw := raw, directive := directive }

def compute (typeOf : HostExpression → StaticType) (tag : String) (a : Attribute)
    (assignment : Assignment) : Consult BindingTypes := do
  let found ← member? tag a
  return ofTarget typeOf (found.map (·.2)) a.binding assignment.value

/-- The types of a binding, from the memo if they are there. -/
def resolve (memo : BindingMemo) (typeOf : HostExpression → StaticType) (tag : String)
    (a : Attribute) (assignment : Assignment) : Consult BindingTypes :=
  match memo.lookup assignment.id with
  | some types => pure types
  | none => compute typeOf tag a assignment

end BindingTypes

/-- Keep types in the memo, unless it has them. -/
def BindingMemo.record (memo : BindingMemo) (id : Nat) (types : BindingTypes) : BindingMemo :=
  if (memo.lookup id).isSome then memo else (id, types) :: memo

end Inlay
