import Inlay.Types.Basic

/-!
# Assignability

`StaticType.assignable target value` decides whether a value of one type may be
bound to a target of another.  It is forgiving: where the information runs out
the value is taken to fit, so that a missing declaration never makes a binding
look wrong.

Comparison goes down the two types together and gives up, in favour of the
value, after `depthLimit` steps.  The remaining depth is the argument on which
the definition recurs.
-/

namespace Inlay
namespace StaticType

/-- The steps after which two types count as compatible. -/
def depthLimit : Nat := 17

/-- The number of arguments that a call has to supply. -/
def requiredCount (params : List (Field StaticType)) : Nat :=
  (params.filter fun p => !p.isOptional).length

/-- The signatures are compatible, given how types compare: the value may
ignore parameters at the end, parameters compare in either direction, and a
target without result takes any. -/
def signatureFits (fits : StaticType → StaticType → Bool)
    (target value : Signature StaticType) : Bool :=
  requiredCount value.params ≤ target.params.length &&
    (target.params.zip value.params).all (fun p =>
      fits p.1.type p.2.type || fits p.2.type p.1.type) &&
    (target.result.isVoid || fits target.result value.result)

/-- The members that a target asks for are there and compatible, or optional. -/
def membersFit (fits : StaticType → StaticType → Bool)
    (target value : List (Field StaticType)) : Bool :=
  target.all fun m =>
    match memberNamed? value m.name with
    | some found => fits m.type found.type
    | none => m.isOptional

/-- A target's call, if it has one, is met by the value's. -/
def callFits (fits : StaticType → StaticType → Bool) :
    Option (Signature StaticType) → Option (Signature StaticType) → Bool
  | none, _ => true
  | some target, some value => signatureFits fits target value
  | some _, none => false

/-- Both types are declared, under one name. -/
def sameDeclaration : Option String → Option String → Bool
  | some a, some b => a == b
  | _, _ => false

/-- A value against an object type. -/
def objectFits (fits : StaticType → StaticType → Bool) (name : Option String)
    (members : List (Field StaticType)) (call : Option (Signature StaticType)) :
    StaticType → Bool
  | .object name' members' call' =>
    sameDeclaration name name' ||
      (callFits fits call call' && membersFit fits members members')
  | .function f => callFits fits call (some f) && members.all (·.isOptional)
  | .array _ => members.all (·.isOptional) && call.isNone
  | _ => false

/-- Compare at most `remaining` steps deep. -/
def assignableWithin : Nat → StaticType → StaticType → Bool
  | 0, _, _ => true
  | n + 1, target, value =>
    match target, value with
    | .any, _ | .unknown, _ => true
    | _, .any | _, .unknown | _, .never => true
    | t, .union vs => vs.all fun v => assignableWithin n t v
    | t, .boolean =>
      -- `boolean` is the two literals, so it fits a target that takes both.
      assignableWithin n t (.booleanLiteral true) && assignableWithin n t (.booleanLiteral false)
    | .union ts, v => ts.any fun t => assignableWithin n t v
    | .never, _ => false
    | .string, .string | .string, .stringLiteral _ => true
    | .stringLiteral a, .stringLiteral b => a == b
    | .number, .number | .number, .numberLiteral _ => true
    | .numberLiteral a, .numberLiteral b => a.same b
    | .boolean, .booleanLiteral _ => true
    | .booleanLiteral a, .booleanLiteral b => a == b
    | .bigint, .bigint => true
    | .null, .null => true
    | .undefined, .undefined => true
    | .void, .undefined | .void, .void => true
    | .array t, .array v => assignableWithin n t v
    | .function f, v =>
      match v.callSignature? with
      | some g => signatureFits (assignableWithin n) f g
      | none => false
    | .object name members call, v => objectFits (assignableWithin n) name members call v
    | _, _ => false

/-- A value of type `value` may be bound to a target of type `target`. -/
def assignable (target value : StaticType) : Bool := assignableWithin depthLimit target value

/-- Every member of the value is admitted by a list of declared names.  The
names of primitives admit those; where nothing is known the value passes. -/
def isAdmittedBy (value : StaticType) (allowed : List String) : Bool :=
  value.members.all fun m =>
    match m with
    | .any | .unknown | .never => true
    | .string | .stringLiteral _ => allowed.contains "string"
    | .number | .numberLiteral _ => allowed.contains "number"
    | .boolean | .booleanLiteral _ => allowed.contains "boolean"
    | .null => allowed.contains "null"
    | .undefined | .void => allowed.contains "undefined"
    | m => m.nominalName?.any allowed.contains

end StaticType
end Inlay
