import Inlay.Host.Expression
import Inlay.Types.Union

/-!
# Directives

A directive is a call whose result the template runtime treats in a way of its
own.  The built-in ones are recognized by the name that is called; any other
call is a directive when its value is a function of one part, or the declared
result of a directive class.

What a directive renders may differ from the type of its call.  Where its
arguments do not fit, nothing is known of what it renders.
-/

namespace Inlay

/-- The type of an expression in a host file, as far as the host knows it. -/
abbrev TypeProvider := String → HostExpression → StaticType

/-- The directives that are known by name, and those of the program. -/
inductive DirectiveKind where
  | ifDefined
  | guard
  | classMap
  | styleMap
  | unsafeHtml
  | cache
  | repeated
  | asyncReplace
  | asyncAppend
  | custom
  deriving DecidableEq, Inhabited

namespace DirectiveKind

def name : DirectiveKind → String
  | .ifDefined => "ifDefined"
  | .guard => "guard"
  | .classMap => "classMap"
  | .styleMap => "styleMap"
  | .unsafeHtml => "unsafeHTML"
  | .cache => "cache"
  | .repeated => "repeat"
  | .asyncReplace => "asyncReplace"
  | .asyncAppend => "asyncAppend"
  | .custom => "directive"

def builtIn : List DirectiveKind :=
  [.ifDefined, .guard, .classMap, .styleMap, .unsafeHtml, .cache, .repeated, .asyncReplace,
   .asyncAppend]

def ofName? (callee : String) : Option DirectiveKind := builtIn.find? fun k => k.name == callee

def takes (kind : DirectiveKind) (count : Nat) : Bool :=
  match kind with
  | .ifDefined | .classMap | .styleMap | .unsafeHtml | .cache => count == 1
  | .guard => count == 2
  | .repeated => 2 ≤ count && count ≤ 3
  | .asyncReplace | .asyncAppend => 1 ≤ count && count ≤ 2
  | .custom => true

end DirectiveKind

/-- A directive in a binding: what it renders, where that is known, and whether
its arguments fit. -/
structure Directive where
  kind : DirectiveKind
  rendered : Option StaticType := none
  isMisused : Bool := false
  deriving Inhabited

namespace Directive

/-- The types of the parts that the function of a directive takes. -/
def partTypes : List String :=
  ["AttributePart", "BooleanAttributePart", "PropertyPart", "EventPart", "NodePart", "Part"]

/-- The declared result of a directive class. -/
def resultType : String := "DirectiveResult"

/-- A member of a type is a function of one part, or the result of a directive
class. -/
def isDirectiveMember (t : StaticType) : Bool :=
  t.nominalName? == some resultType ||
    match t.callSignature? with
    | some { params := [p], result := .void } => p.type.nominalName?.any partTypes.contains
    | _ => false

/-- Every value of the type is a directive. -/
def isDirectiveType (t : StaticType) : Bool := !t.isVague && t.members.all isDirectiveMember

def ofCall (typeOf : HostExpression → StaticType) (kind : DirectiveKind)
    (arguments : List HostExpression) : Directive :=
  if !kind.takes arguments.length then { kind := kind, isMisused := true }
  else
    match kind, arguments with
    | .ifDefined, a :: _ => { kind := kind, rendered := some (typeOf a).withoutNullish }
    | .guard, _ :: callback :: _ =>
      let type := typeOf callback
      if type.isVague then { kind := kind }
      else
        match type.callSignature? with
        | some f => { kind := kind, rendered := some f.result }
        | none => { kind := kind, isMisused := true }
    | _, _ => { kind := kind }

/-- The directive that a hole calls, whose value has the type given. -/
def ofHole? (typeOf : HostExpression → StaticType) (hole : Hole) (value : StaticType) :
    Option Directive :=
  hole.call.bind fun call =>
    match DirectiveKind.ofName? call.callee with
    | some kind => some (ofCall typeOf kind call.arguments)
    | none => if isDirectiveType value then some { kind := .custom } else none

end Directive
end Inlay
