import Inlay.Types.Basic

/-!
# Normal unions

`StaticType.union` puts a list of types into normal form: one level of nesting
is flattened, duplicates go, `any` and then `unknown` absorb everything, `never`
vanishes, the two boolean literals become `boolean`, and a literal gives way to
its base type.  What remains is a union of at least two members, or a single
type.
-/

namespace Inlay
namespace StaticType

def insertNew (ts : List StaticType) (t : StaticType) : List StaticType :=
  if t.isIn ts then ts else ts ++ [t]

/-- The distinct members of the types, in the order of their first occurrence. -/
def distinctMembers (ts : List StaticType) : List StaticType :=
  (ts.flatMap members).foldl insertNew []

/-- Write `boolean` for both literals, or for a literal next to it. -/
def joinBooleans (ts : List StaticType) : List StaticType :=
  if ((booleanLiteral true).isIn ts && (booleanLiteral false).isIn ts) || boolean.isIn ts then
    insertNew (ts.filter fun t => !t.isBooleanLiteral) boolean
  else ts

def dropStringLiterals (ts : List StaticType) : List StaticType :=
  if string.isIn ts then ts.filter fun t => !t.isStringLiteral else ts

def dropNumberLiterals (ts : List StaticType) : List StaticType :=
  if number.isIn ts then ts.filter fun t => !t.isNumberLiteral else ts

/-- The type that a list of members stands for. -/
def ofMembers : List StaticType → StaticType
  | [] => .never
  | [t] => t
  | ts => .union ts

/-- The normal union of the types. -/
def unionOf (ts : List StaticType) : StaticType :=
  let flat := distinctMembers ts
  if flat.any isAny then .any
  else if flat.any isUnknown then .unknown
  else
    ofMembers (dropNumberLiterals (dropStringLiterals (joinBooleans
      (flat.filter fun t => !t.isNever))))

/-- What two descriptions of one name say together.  `any` says nothing and
gives way to the other side. -/
def merge (a b : StaticType) : StaticType :=
  if a.isAny then b
  else if b.isAny then a
  else if a.same b then a
  else unionOf [a, b]

def withoutNullish : StaticType → StaticType
  | .union ts => unionOf (ts.filter fun t => !t.isNullish)
  | .null | .undefined => .never
  | t => t

def ofTexts (texts : List String) : StaticType := unionOf (texts.map stringLiteral)

mutual
/-- The text that an attribute shows for a value of the type: numbers and
booleans are written out, and nullish values become their keyword. -/
def attributeText : StaticType → StaticType
  | .number | .bigint => .string
  | .numberLiteral n => .stringLiteral n.text
  | .boolean => ofTexts ["true", "false"]
  | .booleanLiteral b => .stringLiteral (if b then "true" else "false")
  | .null => .stringLiteral "null"
  | .undefined | .void => .stringLiteral "undefined"
  | .union ts => unionOf (attributeTexts ts)
  | t => t

def attributeTexts : List StaticType → List StaticType
  | [] => []
  | t :: ts => t.attributeText :: attributeTexts ts
end

end StaticType
end Inlay
