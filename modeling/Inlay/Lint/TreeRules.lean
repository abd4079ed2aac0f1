import Inlay.Lint.Rule

/-!
# Rules about tags

These rules look at nodes: whether their tag is known and declared in a file that
can be seen, and whether they are closed.
-/

namespace Inlay

open Markup

def bracketed (name : String) : String := "<" ++ name ++ ">"

namespace UnknownTagName

def info : RuleInfo :=
  { name := "no-unknown-tag-name", description := "Disallow unknown tag names"
    usual := .warn, strict := .warn }

/-- The finding for an unknown tag, with the nearest known one. -/
def finding (n : Node) (suggested : Option String) : Finding :=
  { span := n.nameSpan, message := "Unknown tag " ++ bracketed n.tag ++ "."
    help := some <|
      match suggested with
      | some s => didYouMean bracketed s
      | none => "Check that the element is defined and declared in the tag name map."
    payload := .unknownTarget n.tag suggested }

def onNode (s : Scene) (n : Node) : Consult (List Finding) := do
  if n.kind ≠ .element then return []
  if ← Consult.hasTag n.tag then return []
  let tags ← Consult.tags
  return [finding n (s.suggest n.lower (tags.map (·.name)))]

end UnknownTagName

/-- Elements are known to the knowledge base. -/
def unknownTagName : Rule := { info := UnknownTagName.info, onNode := UnknownTagName.onNode }

namespace MissingImport

def info : RuleInfo :=
  { name := "no-missing-import", description := "Require imports for used custom elements"
    usual := .off, strict := .warn }

/-- The file that declares a tag, if the program declares it and the file is
neither the document's own nor among the visible ones. -/
def hiddenFile? (s : Scene) (visible : List String) (t : Tag) : Option String :=
  if t.isBuiltIn || !t.isDeclared then none
  else
    (t.declaration.map (·.fileName)).filter fun file =>
      file != s.document.fileName && !visible.contains file

def finding (n : Node) (t : Tag) (file : String) : Finding :=
  { span := n.nameSpan, message := "Missing import for " ++ bracketed n.tag ++ "."
    help := some ("Import \"" ++ file ++ "\" where " ++ bracketed t.name ++ " is used.")
    payload := .missingImport t.name file }

def onNode (s : Scene) (n : Node) : Consult (List Finding) := do
  if n.kind ≠ .element then return []
  match s.visibleFiles with
  | none => return []
  | some visible =>
    match ← Consult.tag? n.tag with
    | none => return []
    | some t => return ((hiddenFile? s visible t).map (finding n t)).toList

end MissingImport

/-- Discovered elements are declared in a file that can be seen. -/
def missingImport : Rule := { info := MissingImport.info, onNode := MissingImport.onNode }

namespace UnclosedTag

def info : RuleInfo :=
  { name := "no-unclosed-tag", description := "Require non-void elements to be closed"
    usual := .warn, strict := .error }

def finding (n : Node) : Finding :=
  { span := n.startTag, message := "This tag isn't closed: " ++ bracketed n.tag ++ "."
    help := some ("Add </" ++ n.tag ++ "> or self-close the tag.") }

def onNode (_ : Scene) (n : Node) : Consult (List Finding) :=
  pure (if n.isUnclosed then [finding n] else [])

end UnclosedTag

/-- Elements that are not void are closed. -/
def unclosedTag : Rule := { info := UnclosedTag.info, onNode := UnclosedTag.onNode }

end Inlay
