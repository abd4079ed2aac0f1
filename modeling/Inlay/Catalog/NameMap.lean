import Inlay.Catalog.Descriptor

/-!
# Maps from names

`NameMap` keeps named values in the order of their first insertion and finds
them by name, ignoring ASCII case.  Each entry holds its key, which is the name
in lower case, so a lookup compares keys only.
-/

namespace Inlay

/-- Values that have a name, and that can be joined with another of that
name. -/
class Named (α : Type) where
  name : α → String
  merge : α → α → α

instance : Named Descriptor where
  name := Descriptor.name
  merge := Descriptor.merge

instance : Named Tag where
  name := Tag.name
  merge := Tag.merge

/-- Values by name, in the order of insertion. -/
structure NameMap (α : Type) where
  entries : List (String × α) := []
  deriving Inhabited

namespace NameMap

variable {α : Type}

def empty : NameMap α := {}

/-- The key of a value. -/
def key [Named α] (value : α) : String := lowerName (Named.name value)

def values (m : NameMap α) : List α := m.entries.map (·.2)

def size (m : NameMap α) : Nat := m.entries.length

def isEmpty (m : NameMap α) : Bool := m.entries.isEmpty

def names [Named α] (m : NameMap α) : List String := m.values.map Named.name

def find? (m : NameMap α) (k : String) : Option α := m.entries.lookup k

/-- The value with a name, in any case. -/
def get? (m : NameMap α) (name : String) : Option α := m.find? (lowerName name)

def contains (m : NameMap α) (name : String) : Bool := (m.get? name).isSome

def position? (m : NameMap α) (name : String) : Option Nat :=
  m.entries.findIdx? fun e => e.1 == lowerName name

def modify (k : String) (f : α → α) : List (String × α) → List (String × α)
  | [] => []
  | e :: rest => if e.1 == k then (k, f e.2) :: rest else e :: modify k f rest

/-- Insert a value, joining it with the value of its name. -/
def insertMerge [Named α] (m : NameMap α) (value : α) : NameMap α :=
  let k := key value
  if (m.find? k).isSome then { entries := modify k (Named.merge · value) m.entries }
  else { entries := m.entries ++ [(k, value)] }

def insertIfAbsent [Named α] (m : NameMap α) (value : α) : NameMap α :=
  let k := key value
  if (m.find? k).isSome then m else { entries := m.entries ++ [(k, value)] }

/-- Insert a value in the place of the value of its name, which is the first
part of the answer. -/
def insertReplace [Named α] (m : NameMap α) (value : α) : Option α × NameMap α :=
  let k := key value
  match m.find? k with
  | some old => (some old, { entries := modify k (fun _ => value) m.entries })
  | none => (none, { entries := m.entries ++ [(k, value)] })

/-- Remove the value with a name, which is the first part of the answer. -/
def remove (m : NameMap α) (name : String) : Option α × NameMap α :=
  let k := lowerName name
  (m.find? k, { entries := m.entries.eraseP fun e => e.1 == k })

/-- Insert all values, joining those of one name. -/
def mergeAll [Named α] (m : NameMap α) (values : List α) : NameMap α :=
  values.foldl insertMerge m

def fillWith [Named α] (m : NameMap α) (values : List α) : NameMap α :=
  values.foldl insertIfAbsent m

/-- Insert all values, each in place of the one of its name. -/
def replaceAll [Named α] (m : NameMap α) (values : List α) : NameMap α :=
  values.foldl (fun m v => (m.insertReplace v).2) m

def removeAll (m : NameMap α) (names : List String) : NameMap α :=
  names.foldl (fun m n => (m.remove n).2) m

end NameMap
end Inlay
