import Inlay.Number.Binary64

/-!
# JSON values

A value keeps the fields of an object in the order in which they were written,
repeated names included, because a reader of a record refuses a repeated field
and only the reader knows which names matter to it.

Some texts are well formed and still denote nothing: a string with half of a
surrogate pair, or a number past the range of doubles.  They are held as
`unreadable`, which does no harm in a field that nobody reads.

Text is read into values outside of this library, by a `JsonReader`.
-/

namespace Inlay

/-- A number as JSON distinguishes it: an integer of at most 64 bits written
without point and power, or a double. -/
inductive JsonNumber where
  | integer (value : Int)
  | real (value : Number)
  deriving DecidableEq, Inhabited

inductive Json where
  | null
  | bool (value : Bool)
  | number (value : JsonNumber)
  | string (value : String)
  | array (items : List Json)
  | object (fields : List (String × Json))
  | unreadable
  deriving Inhabited

/-- A reader of JSON text: from a text to its value, if it is well formed. -/
abbrev JsonReader := String → Option Json

namespace Json

mutual
/-- How deeply arrays and objects nest in the value. -/
def depth : Json → Nat
  | .array items => depthOfItems items + 1
  | .object fields => depthOfFields fields + 1
  | _ => 0

def depthOfItems : List Json → Nat
  | [] => 0
  | j :: rest => max j.depth (depthOfItems rest)

def depthOfFields : List (String × Json) → Nat
  | [] => 0
  | (_, j) :: rest => max j.depth (depthOfFields rest)
end

mutual
/-- No part of the value is unreadable. -/
def isReadable : Json → Bool
  | .unreadable => false
  | .array items => itemsAreReadable items
  | .object fields => fieldsAreReadable fields
  | _ => true

def itemsAreReadable : List Json → Bool
  | [] => true
  | j :: rest => j.isReadable && itemsAreReadable rest

def fieldsAreReadable : List (String × Json) → Bool
  | [] => true
  | (_, j) :: rest => j.isReadable && fieldsAreReadable rest
end

/-- Containers may nest this deeply in a value that is read as a whole. -/
def depthLimit : Nat := 127

/-- A value that is taken as it is, whatever its form.  All of it is read, so
nothing in it may be unreadable, and with the `outer` containers around it it
may not nest past the limit. -/
def whole? (outer : Nat) (j : Json) : Option Json :=
  if j.isReadable && j.depth + outer ≤ depthLimit then some j else none

end Json
end Inlay
