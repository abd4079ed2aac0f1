import Inlay.Text.Entries
import Inlay.Text.Name

/-!
# Allow-lists for attributes

Binding an expression to an attribute such as `href` can be restricted to values
of certain declared types.  Lists are kept by tag and attribute, and by
attribute alone; a list for the tag goes before one for the attribute.
-/

namespace Inlay

/-- A set of allow-lists that can be installed as a whole. -/
inductive SecuritySystem where
  | off
  | closureSafeTypes
  deriving DecidableEq, Inhabited

abbrev AllowLists := List (String × List String)

/-- Allow-lists for attributes of certain tags, and of all tags. -/
structure Security where
  tags : List (String × AllowLists) := []
  global : AllowLists := []
  deriving DecidableEq, Inhabited

namespace Security

/-- The list for an attribute of a tag, in any case. -/
def lookup? (s : Security) (tag attributeName : String) : Option (List String) :=
  let key := lowerName attributeName
  ((s.tags.lookup (lowerName tag)).bind fun lists => lists.lookup key) <|> s.global.lookup key

def isEmpty (s : Security) : Bool := s.tags.isEmpty && s.global.isEmpty

def lowered {α : Type} (entries : List (String × α)) : List (String × α) :=
  entries.map fun e => (lowerName e.1, e.2)

/-- Put the lists of a tag over those that are there. -/
def overlayTag (tags : List (String × AllowLists)) (tag : String) (lists : AllowLists) :
    List (String × AllowLists) :=
  let key := lowerName tag
  Entries.set key (Entries.setAll ((tags.lookup key).getD []) (lowered lists)) tags

/-- Put explicit lists over those of a system. -/
def overlay (s explicit : Security) : Security :=
  { tags := explicit.tags.foldl (fun tags e => overlayTag tags e.1 e.2) s.tags
    global := Entries.setAll s.global (lowered explicit.global) }

/-- Values that may name a resource that is run. -/
def resourceUrl : List String := ["TrustedResourceUrl"]

/-- Values that may name any other resource. -/
def url : List String := ["SafeUrl", "TrustedResourceUrl"]

def closureSafeTypes : Security :=
  { tags :=
      [("iframe", [("src", resourceUrl)]), ("script", [("src", resourceUrl)]),
       ("embed", [("src", resourceUrl)]), ("object", [("data", resourceUrl)])]
    global :=
      [("href", url), ("src", url), ("action", url), ("formaction", url), ("srcset", url),
       ("background", url), ("cite", url), ("poster", url), ("style", ["SafeStyle"])] }

def ofSystem : SecuritySystem → Security
  | .off => {}
  | .closureSafeTypes => closureSafeTypes

end Security
end Inlay
