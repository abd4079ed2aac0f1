import Inlay.Json.Basic
import Inlay.Text.Entries

/-!
# Decoding records

A record is read from an object with its fields in any order, or from an array
with its fields in the order of their declaration.  An object may hold fields
that the record does not know, but none of the known ones twice; an array may be
short, but not long.  `null` stands for a missing value only where the field is
optional.
-/

namespace Inlay
namespace Json

def string? : Json → Option String
  | .string s => some s
  | _ => none

def bool? : Json → Option Bool
  | .bool b => some b
  | _ => none

/-- A natural number below a limit, written as an integer. -/
def natBelow? (limit : Nat) : Json → Option Nat
  | .number (.integer n) => if 0 ≤ n ∧ n < limit then some n.toNat else none
  | _ => none

def list? {α : Type} (item : Json → Option α) : Json → Option (List α)
  | .array items => items.mapM item
  | _ => none

/-- A dictionary.  Of a repeated key the last value counts. -/
def dictionary? {α : Type} (value : Json → Option α) : Json → Option (List (String × α))
  | .object fields =>
    (fields.mapM fun f => (value f.2).map fun v => (f.1, v)).map (Entries.setAll [])
  | _ => none

mutual
/-- The value with every key once, under the last of its values. -/
def settled : Json → Json
  | .array items => .array (settledItems items)
  | .object fields => .object (Entries.setAll [] (settledFields fields))
  | j => j

def settledItems : List Json → List Json
  | [] => []
  | j :: rest => j.settled :: settledItems rest

def settledFields : List (String × Json) → List (String × Json)
  | [] => []
  | (name, j) :: rest => (name, j.settled) :: settledFields rest
end

/-- One of a set of words, also when it is the only field of an object and has
no content. -/
def choice? {α : Type} (named : String → Option α) : Json → Option α
  | .string s => named s
  | .object [(s, .null)] => named s
  | _ => none

/-- The only value of a field, if it occurs once; `none` inside when it does not
occur, and no answer when it is repeated. -/
def only? (fields : List (String × Json)) (name : String) : Option (Option Json) :=
  match fields.filter (·.1 == name) with
  | [] => some none
  | [f] => some (some f.2)
  | _ => none

/-- The values of the fields of a record, in the order of `names`. -/
def record? (names : List String) : Json → Option (List (Option Json))
  | .object fields => names.mapM (only? fields)
  | .array items =>
    if items.length ≤ names.length then
      some ((items.map some) ++ List.replicate (names.length - items.length) none)
    else none
  | _ => none

/-- A field that has a default when it is missing. -/
def fieldD? {α : Type} (decode : Json → Option α) (default : α) : Option Json → Option α
  | some j => decode j
  | none => some default

def field? {α : Type} (decode : Json → Option α) : Option Json → Option α
  | some j => decode j
  | none => none

/-- A field that may be missing or `null`. -/
def optional? {α : Type} (decode : Json → Option α) : Option Json → Option (Option α)
  | some .null => some none
  | some j => (decode j).map some
  | none => some none

end Json
end Inlay
