import Inlay.Catalog.HtmlData
import Inlay.Host.Literal
import Inlay.Json.Writer
import Inlay.Lint.Settings
import Inlay.Workspace.Files

/-!
# Configuration

A configuration is one JSON record.  Every field has a default, fields that are
not known are passed over, and a record that does not decode is no configuration
at all.

Descriptors stand in files that are named by their paths, relative to a base directory if
there is one, or in the configuration itself.  A source that cannot be read is left out,
and the others are not affected.
-/

namespace Inlay

/-- Descriptors in a file, or in the configuration. -/
inductive DataSource where
  | path (path : String)
  | inline (data : Json)
  deriving Inhabited

/-- How a program is to be analyzed. -/
structure Config where
  isStrict : Bool := false
  levels : List (String × Level) := []
  globalTags : List String := []
  globalAttributes : List String := []
  globalEvents : List String := []
  htmlData : List DataSource := []
  tags : LiteralTags := {}
  securitySystem : SecuritySystem := .off
  securityOverrides : Security := {}
  suggestionDistance : Nat := defaultSuggestionDistance
  deriving Inhabited

namespace Config

def fileName : String := "litho.config.json"

/-! ## Decoding -/

def level? : String → Option Level
  | "off" => some .off
  | "warn" => some .warn
  | "error" => some .error
  | _ => none

def system? : String → Option SecuritySystem
  | "off" => some .off
  | "ClosureSafeTypes" => some .closureSafeTypes
  | _ => none

def texts? : Json → Option (List String) := Json.list? Json.string?

def allowLists? : Json → Option AllowLists := Json.dictionary? texts?

def security? (j : Json) : Option Security :=
  match Json.record? ["tags", "global"] j with
  | some [tags, global] => do
    return {
      tags := ← Json.fieldD? (Json.dictionary? allowLists?) [] tags
      global := ← Json.fieldD? allowLists? [] global }
  | _ => none

/-- A text is a path; anything else is data, and is kept as it is. -/
def dataSource? (j : Json) : Option DataSource :=
  (j.whole? 2).map fun j =>
    match j with
    | .string path => .path path
    | j => .inline j.settled

/-- The fields of the record, in the order in which an array gives them. -/
def fields : List String :=
  ["strict", "rules", "globalTags", "globalAttributes", "globalEvents", "customHtmlData",
   "htmlTemplateTags", "cssTemplateTags", "securitySystem", "securityOverrides",
   "maxSuggestionDistance"]

def ofJson? (j : Json) : Option Config :=
  match Json.record? fields j with
  | some [strict, rules, globalTags, globalAttributes, globalEvents, customHtmlData,
      htmlTemplateTags, cssTemplateTags, securitySystem, securityOverrides,
      maxSuggestionDistance] => do
    let default : Config := {}
    return {
      isStrict := ← Json.fieldD? Json.bool? default.isStrict strict
      levels := ← Json.fieldD? (Json.dictionary? (Json.choice? level?)) default.levels rules
      globalTags := ← Json.fieldD? texts? default.globalTags globalTags
      globalAttributes := ← Json.fieldD? texts? default.globalAttributes globalAttributes
      globalEvents := ← Json.fieldD? texts? default.globalEvents globalEvents
      htmlData := ← Json.fieldD? (Json.list? dataSource?) default.htmlData customHtmlData
      tags := {
        markup := ← Json.fieldD? texts? default.tags.markup htmlTemplateTags
        stylesheet := ← Json.fieldD? texts? default.tags.stylesheet cssTemplateTags }
      securitySystem :=
        ← Json.fieldD? (Json.choice? system?) default.securitySystem securitySystem
      securityOverrides :=
        ← Json.fieldD? security? default.securityOverrides securityOverrides
      suggestionDistance :=
        ← Json.fieldD? (Json.natBelow? (Nat.pow 2 64)) default.suggestionDistance
          maxSuggestionDistance }
  | _ => none

def ofText? (json? : JsonReader) (text : String) : Option Config := (json? text).bind ofJson?

/-! ## Encoding -/

def levelText : Level → String
  | .off => "off"
  | .warn => "warn"
  | .error => "error"

def systemText : SecuritySystem → String
  | .off => "off"
  | .closureSafeTypes => "ClosureSafeTypes"

def textsJson (texts : List String) : Json := .array (texts.map .string)

def entriesJson {α : Type} (value : α → Json) (entries : List (String × α)) : Json :=
  .object (entries.map fun e => (e.1, value e.2))

def allowListsJson : AllowLists → Json := entriesJson textsJson

def dataSourceJson : DataSource → Json
  | .path path => .string path
  | .inline data => data

/-- The configuration as a record with all its fields. -/
def toJson (c : Config) : Json :=
  .object [
    ("strict", .bool c.isStrict),
    ("rules", entriesJson (fun l => .string (levelText l)) c.levels),
    ("globalTags", textsJson c.globalTags),
    ("globalAttributes", textsJson c.globalAttributes),
    ("globalEvents", textsJson c.globalEvents),
    ("customHtmlData", .array (c.htmlData.map dataSourceJson)),
    ("htmlTemplateTags", textsJson c.tags.markup),
    ("cssTemplateTags", textsJson c.tags.stylesheet),
    ("securitySystem", .string (systemText c.securitySystem)),
    ("securityOverrides", .object [
      ("tags", entriesJson allowListsJson c.securityOverrides.tags),
      ("global", allowListsJson c.securityOverrides.global)]),
    ("maxSuggestionDistance", .number (.integer c.suggestionDistance))]

/-! ## Using -/

/-- What rules read of the configuration.  Explicit lists go over those of the
security system. -/
def settings (c : Config) : Settings :=
  { isStrict := c.isStrict, levels := c.levels
    security := (Security.ofSystem c.securitySystem).overlay c.securityOverrides
    suggestionDistance := c.suggestionDistance }

/-- The knowledge in a data source. -/
def load (json? : JsonReader) (files : Files) : DataSource → Except Failure Collection
  | .inline data => HtmlData.ofJson data
  | .path path =>
    match files.open? path with
    | some text => HtmlData.ofText json? text
    | none => .error .file

/-- The names that the configuration makes known, with members of any type. -/
def namedCollection (c : Config) : Collection :=
  { tags := c.globalTags.map fun name => { name := name }
    globals :=
      { attributes := c.globalAttributes.map fun name => { name := name }, properties := []
        events := c.globalEvents.map fun name => { name := name }, slots := [], cssParts := []
        cssProperties := [] } }

/-- All the knowledge that the configuration gives.  Sources that cannot be read
are left out. -/
def userCollection (c : Config) (json? : JsonReader) (files : Files) : Collection :=
  c.htmlData.foldl (fun known source =>
    match load json? files source with
    | .ok data => known.append data
    | .error _ => known) c.namedCollection

def ofFile (json? : JsonReader) (read? : String → Option String) (path : String) :
    Except Failure Config :=
  match read? path with
  | none => .error .file
  | some text =>
    match ofText? json? text with
    | some c => .ok c
    | none => .error .json

/-- The configuration of a directory, or the default one. -/
def ofDirectory (json? : JsonReader) (read? : String → Option String) (directory : String) :
    Config :=
  match ofFile json? read? (Files.join directory fileName) with
  | .ok c => c
  | .error _ => {}

def isDefault (c : Config) : Bool :=
  !c.isStrict && c.levels.isEmpty && c.globalTags.isEmpty && c.globalAttributes.isEmpty &&
    c.globalEvents.isEmpty && c.htmlData.isEmpty && c.tags = {} && c.securitySystem = .off &&
    c.securityOverrides.isEmpty && c.suggestionDistance = defaultSuggestionDistance

end Config
end Inlay
