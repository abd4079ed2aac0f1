import Inlay.Types.Basic

/-!
# Writing types

Types are shown as the host language writes them.  A function inside a union or
an array, and a union inside an array, stands in parentheses.  A string literal
is put between quotes as it is.
-/

namespace Inlay
namespace StaticType

def parenthesized (needed : Bool) (text : String) : String :=
  if needed then "(" ++ text ++ ")" else text

def isFunction : StaticType → Bool
  | .function _ => true
  | _ => false

def isUnion : StaticType → Bool
  | .union _ => true
  | _ => false

/-- The mark behind the name of an optional parameter or member. -/
def optionalMark (isOptional : Bool) : String := if isOptional then "?" else ""

mutual
def render : StaticType → String
  | .any => "any"
  | .unknown => "unknown"
  | .never => "never"
  | .void => "void"
  | .null => "null"
  | .undefined => "undefined"
  | .string => "string"
  | .number => "number"
  | .boolean => "boolean"
  | .bigint => "bigint"
  | .stringLiteral s => "\"" ++ s ++ "\""
  | .numberLiteral n => n.text
  | .booleanLiteral b => if b then "true" else "false"
  | .union ts => String.intercalate " | " (renderMembers ts)
  | .array t => parenthesized (t.isUnion || t.isFunction) t.render ++ "[]"
  | .function f => renderSignature f
  | .object (some name) _ _ => name
  | .object none [] call => renderCall call
  | .object none fields _ =>
    "\x7b " ++ String.intercalate " " (renderFields fields) ++ " \x7d"

def renderMembers : List StaticType → List String
  | [] => []
  | t :: ts => parenthesized t.isFunction t.render :: renderMembers ts

def renderFields : List (Field StaticType) → List String
  | [] => []
  | ⟨name, t, o⟩ :: fs => (name ++ optionalMark o ++ ": " ++ t.render ++ ";") :: renderFields fs

def renderParams : List (Field StaticType) → List String
  | [] => []
  | ⟨name, t, o⟩ :: ps => (name ++ optionalMark o ++ ": " ++ t.render) :: renderParams ps

def renderSignature : Signature StaticType → String
  | ⟨params, result⟩ =>
    "(" ++ String.intercalate ", " (renderParams params) ++ ") => " ++ result.render

def renderCall : Option (Signature StaticType) → String
  | some f => renderSignature f
  | none => "\x7b\x7d"
end

end StaticType
end Inlay
