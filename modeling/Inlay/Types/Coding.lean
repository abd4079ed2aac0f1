import Inlay.Json.Decode
import Inlay.Number.Shortest
import Inlay.Types.Basic

/-!
# Types as JSON

The form in which a host hands types over, and in which diagnostics carry them.
A type without parts is its word; any other is an object with one field, which
says what it is made of.  Numbers are written as text, because JSON has no word
for those that are not finite.
-/

namespace Inlay
namespace StaticType

/-- The types without parts, by their word. -/
def words : List (String × StaticType) :=
  [("any", .any), ("unknown", .unknown), ("never", .never), ("void", .void), ("null", .null),
   ("undefined", .undefined), ("string", .string), ("number", .number), ("boolean", .boolean),
   ("bigInt", .bigint)]

/-! ## Encoding -/

mutual
def toJson : StaticType → Json
  | .any => .string "any"
  | .unknown => .string "unknown"
  | .never => .string "never"
  | .void => .string "void"
  | .null => .string "null"
  | .undefined => .string "undefined"
  | .string => .string "string"
  | .number => .string "number"
  | .boolean => .string "boolean"
  | .bigint => .string "bigInt"
  | .stringLiteral s => .object [("stringLiteral", .string s)]
  | .numberLiteral n => .object [("numberLiteral", .string n.text)]
  | .booleanLiteral b => .object [("booleanLiteral", .bool b)]
  | .union ts => .object [("union", .array (typesToJson ts))]
  | .array t => .object [("array", t.toJson)]
  | .function f => .object [("function", signatureToJson f)]
  | .object name members call =>
    .object [("object", .object [
      ("name", match name with
        | some n => .string n
        | none => .null),
      ("members", .array (fieldsToJson members)), ("call", callToJson call)])]

def typesToJson : List StaticType → List Json
  | [] => []
  | t :: ts => t.toJson :: typesToJson ts

def fieldsToJson : List (Field StaticType) → List Json
  | [] => []
  | ⟨name, t, o⟩ :: fs =>
    .object [("name", .string name), ("ty", t.toJson), ("optional", .bool o)] :: fieldsToJson fs

def signatureToJson : Signature StaticType → Json
  | ⟨params, result⟩ =>
    .object [("params", .array (fieldsToJson params)), ("return_type", result.toJson)]

def callToJson : Option (Signature StaticType) → Json
  | some f => signatureToJson f
  | none => .null
end

/-! ## Decoding -/

/-- A list that may be missing. -/
def listD? {α : Type} (item : Json → Option α) (j : Option Json) : Option (List α) :=
  (Json.optional? (Json.list? item) j).map fun l => l.getD []

def fieldWith? (type? : Json → Option StaticType) (j : Json) : Option (Field StaticType) :=
  match Json.record? ["name", "ty", "optional"] j with
  | some [name, type, isOptional] => do
    return { name := ← Json.field? Json.string? name, type := ← Json.field? type? type
             isOptional := (← Json.optional? Json.bool? isOptional).getD false }
  | _ => none

def signatureWith? (type? : Json → Option StaticType) (j : Json) :
    Option (Signature StaticType) :=
  match Json.record? ["params", "return_type"] j with
  | some [params, result] => do
    return { params := ← listD? (fieldWith? type?) params, result := ← Json.field? type? result }
  | _ => none

/-- A type with parts, by the word for it and what it is made of. -/
def partsWith? (type? : Json → Option StaticType) (word : String) (j : Json) :
    Option StaticType :=
  match word with
  | "stringLiteral" => j.string?.map .stringLiteral
  | "numberLiteral" => (j.string?.bind Number.read?).map .numberLiteral
  | "booleanLiteral" => j.bool?.map .booleanLiteral
  | "union" => (j.list? type?).map .union
  | "array" => (type? j).map .array
  | "function" => (signatureWith? type? j).map .function
  | "object" =>
    match Json.record? ["name", "members", "call"] j with
    | some [name, members, call] => do
      return .object (← Json.optional? Json.string? name)
        (← listD? (fieldWith? type?) members) (← Json.optional? (signatureWith? type?) call)
    | _ => none
  | _ => none

/-- A type whose JSON nests less deeply than `depth`. -/
def ofJsonWithin? : (depth : Nat) → Json → Option StaticType
  | 0, _ => none
  | _ + 1, .string word => words.lookup word
  | n + 1, .object [(word, j)] => partsWith? (ofJsonWithin? n) word j
  | _ + 1, _ => none

def ofJson? (j : Json) : Option StaticType := ofJsonWithin? (j.depth + 1) j

end StaticType
end Inlay
