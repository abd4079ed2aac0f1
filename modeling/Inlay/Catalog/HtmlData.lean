import Inlay.Catalog.Collection
import Inlay.Failure
import Inlay.Json.Decode

/-!
# Descriptor files

Tags and attributes can be described in JSON, by the custom-data format that
editors of markup share.  A file names attribute values directly or through a
value set; the value set `v` marks a flag.  Only the first version of the format
is known.
-/

namespace Inlay
namespace HtmlData

/-- An attribute as a file describes it. -/
structure AttributeData where
  name : String
  description : Option String
  valueSet : Option String
  values : Option (List String)
  deriving DecidableEq, Inhabited

structure TagData where
  name : String
  description : Option String
  attributes : List AttributeData
  deriving DecidableEq, Inhabited

/-- A file.  Value sets are pairs of a name and values. -/
structure File where
  version : Nat
  tags : List TagData
  globalAttributes : List AttributeData
  valueSets : List (String × List String)
  deriving DecidableEq, Inhabited

def supportedVersion : Nat := 1

/-- The value set of attributes that are present or absent. -/
def flagSet : String := "v"

/-! ## Decoding -/

/-- A description is a text, or a record with the text in `value`.  All of it is
read to find out which, `outer` containers deep in the file. -/
def description? (outer : Nat) (j : Json) : Option String :=
  match j.whole? outer with
  | some (.string s) => some s
  | some j =>
    match Json.record? ["value"] j with
    | some [value] => Json.field? Json.string? value
    | _ => none
  | none => none

def value? (j : Json) : Option String :=
  match Json.record? ["name"] j with
  | some [name] => Json.field? Json.string? name
  | _ => none

/-- An attribute, `outer` containers deep in the file. -/
def attribute? (outer : Nat) (j : Json) : Option AttributeData :=
  match Json.record? ["name", "description", "valueSet", "values"] j with
  | some [name, description, valueSet, values] => do
    return {
      name := ← Json.field? Json.string? name
      description := ← Json.optional? (description? outer) description
      valueSet := ← Json.optional? Json.string? valueSet
      values := ← Json.optional? (Json.list? value?) values }
  | _ => none

def tag? (j : Json) : Option TagData :=
  match Json.record? ["name", "description", "attributes"] j with
  | some [name, description, attributes] => do
    return {
      name := ← Json.field? Json.string? name
      description := ← Json.optional? (description? 3) description
      attributes := ← Json.fieldD? (Json.list? (attribute? 5)) [] attributes }
  | _ => none

def valueSet? (j : Json) : Option (String × List String) :=
  match Json.record? ["name", "values"] j with
  | some [name, values] => do
    return (← Json.field? Json.string? name, ← Json.fieldD? (Json.list? value?) [] values)
  | _ => none

def file? (j : Json) : Option File :=
  match Json.record? ["version", "tags", "globalAttributes", "valueSets"] j with
  | some [version, tags, globalAttributes, valueSets] => do
    return {
      version := ← Json.fieldD? (Json.natBelow? (Nat.pow 2 32)) supportedVersion version
      tags := ← Json.fieldD? (Json.list? tag?) [] tags
      globalAttributes := ← Json.fieldD? (Json.list? (attribute? 3)) [] globalAttributes
      valueSets := ← Json.fieldD? (Json.list? valueSet?) [] valueSets }
  | _ => none

/-! ## Converting -/

/-- The values of the last set with a name. -/
def valuesOf (sets : List (String × List String)) (name : String) : List String :=
  (sets.reverse.lookup name).getD []

/-- The type of an attribute's values.  Values beside the attribute go before
those of its set; without any, the attribute is a text. -/
def typeOf (sets : List (String × List String)) (a : AttributeData) : StaticType :=
  if a.valueSet = some flagSet then .boolean
  else
    match a.values, a.valueSet with
    | some (v :: vs), _ => Descriptor.textsType (v :: vs)
    | _, some set => Descriptor.textsType (valuesOf sets set)
    | _, none => .string

def describe (sets : List (String × List String)) (a : AttributeData) : Descriptor :=
  { name := a.name, description := a.description, type := typeOf sets a }

def collection (f : File) : Except Failure Collection :=
  if f.version ≠ supportedVersion then .error (.version f.version)
  else
    .ok
      { tags := f.tags.map fun t =>
          { name := t.name, description := t.description
            members :=
              { attributes := t.attributes.map (describe f.valueSets), properties := [],
                events := [], slots := [], cssParts := [], cssProperties := [] } }
        globals :=
          { attributes := f.globalAttributes.map (describe f.valueSets), properties := [],
            events := [], slots := [], cssParts := [], cssProperties := [] } }

def ofJson (j : Json) : Except Failure Collection :=
  match file? j with
  | some f => collection f
  | none => .error .json

def ofText (json? : JsonReader) (text : String) : Except Failure Collection :=
  match json? text with
  | some j => ofJson j
  | none => .error .json

end HtmlData
end Inlay
