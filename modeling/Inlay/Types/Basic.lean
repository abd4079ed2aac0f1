import Inlay.Number.Shortest

/-!
# Static types

A small, closed model of the types that host expressions have and that binding
targets accept.  It is rich enough to tell text from numbers, values from
functions and objects from their declared names, and carries nothing of the
checker that computed the types.
-/

namespace Inlay

/-- A named place for a value: a parameter of a function or a member of an
object. -/
structure Field (α : Type) where
  name : String
  type : α
  isOptional : Bool := false
  deriving Inhabited

/-- What a call takes and gives. -/
structure Signature (α : Type) where
  params : List (Field α)
  result : α
  deriving Inhabited

/-- A structural type.

An object carries its declared name when the type is nominal, and a signature
when it can be called.  The members of a union are held as they were given;
`StaticType.union` builds the normal form. -/
inductive StaticType where
  | any
  | unknown
  | never
  | void
  | null
  | undefined
  | string
  | number
  | boolean
  | bigint
  | stringLiteral (text : String)
  | numberLiteral (value : Number)
  | booleanLiteral (value : Bool)
  | union (members : List StaticType)
  | array (element : StaticType)
  | function (signature : Signature StaticType)
  | object (name : Option String) (members : List (Field StaticType))
      (call : Option (Signature StaticType))
  deriving Inhabited

namespace StaticType

/-- A nominal type without known members. -/
def named (name : String) : StaticType := .object (some name) [] none

/-- The members of a union, or the type itself. -/
def members : StaticType → List StaticType
  | .union ts => ts
  | t => [t]

/-- Types that say nothing about the value. -/
def isVague : StaticType → Bool
  | .any | .unknown | .never => true
  | _ => false

def isAny : StaticType → Bool
  | .any => true
  | _ => false

def isUnknown : StaticType → Bool
  | .unknown => true
  | _ => false

def isNever : StaticType → Bool
  | .never => true
  | _ => false

def isVoid : StaticType → Bool
  | .void => true
  | _ => false

def isNullish : StaticType → Bool
  | .null | .undefined => true
  | _ => false

def isStringLiteral : StaticType → Bool
  | .stringLiteral _ => true
  | _ => false

def isNumberLiteral : StaticType → Bool
  | .numberLiteral _ => true
  | _ => false

def isBooleanLiteral : StaticType → Bool
  | .booleanLiteral _ => true
  | _ => false

/-! ## Equality

Two types are the same when they are built the same way.  Number literals
compare as numbers, so a literal that is not a number differs from itself. -/

mutual
def same : StaticType → StaticType → Bool
  | .any, .any => true
  | .unknown, .unknown => true
  | .never, .never => true
  | .void, .void => true
  | .null, .null => true
  | .undefined, .undefined => true
  | .string, .string => true
  | .number, .number => true
  | .boolean, .boolean => true
  | .bigint, .bigint => true
  | .stringLiteral a, .stringLiteral b => a == b
  | .numberLiteral a, .numberLiteral b => a.same b
  | .booleanLiteral a, .booleanLiteral b => a == b
  | .union as, .union bs => sameTypes as bs
  | .array a, .array b => a.same b
  | .function f, .function g => sameSignature f g
  | .object n ms c, .object n' ms' c' => n == n' && sameFields ms ms' && sameCall c c'
  | _, _ => false

def sameTypes : List StaticType → List StaticType → Bool
  | [], [] => true
  | a :: as, b :: bs => a.same b && sameTypes as bs
  | _, _ => false

def sameFields : List (Field StaticType) → List (Field StaticType) → Bool
  | [], [] => true
  | ⟨n, t, o⟩ :: as, ⟨n', t', o'⟩ :: bs => n == n' && t.same t' && o == o' && sameFields as bs
  | _, _ => false

def sameSignature : Signature StaticType → Signature StaticType → Bool
  | ⟨ps, r⟩, ⟨ps', r'⟩ => sameFields ps ps' && r.same r'

def sameCall : Option (Signature StaticType) → Option (Signature StaticType) → Bool
  | none, none => true
  | some f, some g => sameSignature f g
  | _, _ => false
end

/-- `ts` holds a type that is the same as `t`. -/
def isIn (t : StaticType) (ts : List StaticType) : Bool := ts.any fun u => u.same t

/-! ## Classes of types -/

mutual
/-- Every value of the type is a string, number, boolean, big integer, `null`
or `undefined`. -/
def isPrimitive : StaticType → Bool
  | .string | .number | .boolean | .bigint => true
  | .stringLiteral _ | .numberLiteral _ | .booleanLiteral _ => true
  | .null | .undefined | .void => true
  | .union ts => arePrimitive ts
  | _ => false

def arePrimitive : List StaticType → Bool
  | [] => true
  | t :: ts => t.isPrimitive && arePrimitive ts
end

/-- The type is known to hold objects, arrays or functions. -/
def isComplex (t : StaticType) : Bool := !t.isVague && !t.isPrimitive

def isNullable (t : StaticType) : Bool := t.members.any isNullish

mutual
/-- Every value of the type is a number. -/
def isNumberLike : StaticType → Bool
  | .number | .numberLiteral _ => true
  | .union ts => areNumberLike ts
  | _ => false

def areNumberLike : List StaticType → Bool
  | [] => true
  | t :: ts => t.isNumberLike && areNumberLike ts
end

/-- What calling a value of the type takes and gives. -/
def callSignature? : StaticType → Option (Signature StaticType)
  | .function f => some f
  | .object _ _ call => call
  | _ => none

/-- Every member can be called, as far as is known. -/
def isCallable (t : StaticType) : Bool :=
  t.isVague || t.members.all fun m => m.isVague || m.callSignature?.isSome

def memberNamed? (fields : List (Field StaticType)) (name : String) :
    Option (Field StaticType) :=
  fields.find? fun f => f.name == name

/-- The method by which an object listens to events. -/
def listenerMethod : String := "handleEvent"

/-- Every member is an object that can listen to events. -/
def hasListenerMethod (t : StaticType) : Bool :=
  t.members.all fun m =>
    match m with
    | .object _ fields _ => (memberNamed? fields listenerMethod).any fun f => f.type.isCallable
    | m => m.isVague

def nominalName? : StaticType → Option String
  | .object name _ _ => name
  | _ => none

end StaticType
end Inlay
