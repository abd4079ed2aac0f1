import Inlay.Lint.BindingRules
import Inlay.Lint.NameRules
import Inlay.Lint.StylesheetRule
import Inlay.Lint.TreeRules

/-!
# Running the rules

The engine walks a tree in document order and lets every rule that is enabled
look at each node, attribute and assignment.  At each of them the rules run in
the order in which they are registered, and whatever they find is kept.

Checking gives the diagnostics and the types of the bindings that were looked
at, for the memo of the document.
-/

namespace Inlay

open Markup

/-- The rules about markup, in the order in which they run. -/
def markupRules : List Rule :=
  [unknownTagName, missingImport, unclosedTag, unknownAttribute, unknownProperty, unknownEvent,
   unknownSlot, invalidBoolean, expressionlessProperty, noncallableEvent, complexAttribute,
   nullableAttribute, incompatibleType, invalidDirective]

/-- A rule that runs, with the severity of its findings. -/
structure Enabled where
  rule : Rule
  severity : Severity

/-- The rules that run under some settings. -/
def enabledRules (rules : List Rule) (s : Settings) : List Enabled :=
  rules.filterMap fun r => (s.severity? r.info).map fun severity => ⟨r, severity⟩

structure Report where
  diagnostics : List Diagnostic := []
  bindings : List (Nat × BindingTypes) := []
  deriving Inhabited

def Report.append (a b : Report) : Report :=
  { diagnostics := a.diagnostics ++ b.diagnostics, bindings := a.bindings ++ b.bindings }

namespace Enabled

/-- A finding of the rule as a diagnostic of the document. -/
def diagnose (s : Scene) (e : Enabled) (f : Finding) : Diagnostic :=
  { rule := e.rule.info.name, severity := e.severity, fileName := s.document.fileName,
    location := s.document.location, finding := f }

/-- What the rules find in one place, one rule after the other. -/
def run (s : Scene) (look : Rule → Consult (List Finding)) (rules : List Enabled) :
    Consult (List Diagnostic) :=
  Consult.collect (fun e => return (← look e.rule).map (e.diagnose s)) rules

end Enabled

namespace Engine

def checkAssignment (rules : List Enabled) (s : Scene) (n : Node) (a : Attribute)
    (assignment : Assignment) (types : BindingTypes) : Consult Report := do
  let found ← Enabled.run s (fun r => pure (r.onAssignment s n a assignment types)) rules
  return { diagnostics := found, bindings := [(assignment.id, types)] }

def checkAttribute (rules : List Enabled) (s : Scene) (typeOf : HostExpression → StaticType)
    (memo : BindingMemo) (n : Node) (a : Attribute) : Consult Report := do
  let found ← Enabled.run s (fun r => r.onAttribute s n a) rules
  let onName : Report := { diagnostics := found }
  match a.assignment with
  | none => return onName
  | some assignment =>
    let types ← BindingTypes.resolve memo typeOf n.tag a assignment
    return onName.append (← checkAssignment rules s n a assignment types)

def checkAttributes (rules : List Enabled) (s : Scene) (typeOf : HostExpression → StaticType)
    (memo : BindingMemo) (n : Node) : List Attribute → Consult Report
  | [] => pure {}
  | a :: rest => do
    let first ← checkAttribute rules s typeOf memo n a
    return first.append (← checkAttributes rules s typeOf memo n rest)

/-- Check a node.  What is inside the tag of a style or an image is not checked
against the knowledge of markup. -/
def checkNode (rules : List Enabled) (s : Scene) (typeOf : HostExpression → StaticType)
    (memo : BindingMemo) (n : Node) : Consult Report := do
  let onNode : Report := { diagnostics := ← Enabled.run s (fun r => r.onNode s n) rules }
  if n.kind ≠ .element then return onNode
  return onNode.append (← checkAttributes rules s typeOf memo n n.attributes)

def checkNodes (rules : List Enabled) (s : Scene) (typeOf : HostExpression → StaticType)
    (memo : BindingMemo) : List Node → Consult Report
  | [] => pure {}
  | n :: rest => do
    let first ← checkNode rules s typeOf memo n
    return first.append (← checkNodes rules s typeOf memo rest)

/-- Check a markup document by rules that are enabled.  Where none is, nothing is
looked at. -/
def checkMarkupWith (rules : List Rule) (s : Scene) (types : TypeProvider) (memo : BindingMemo) :
    Consult Report :=
  let enabled := enabledRules rules s.settings
  if enabled.isEmpty then pure {}
  else checkNodes enabled s (types s.document.fileName) memo s.tree.nodes

def checkMarkup (s : Scene) (types : TypeProvider) (memo : BindingMemo) : Consult Report :=
  checkMarkupWith markupRules s types memo

end Engine

def errorCount (ds : List Diagnostic) : Nat := (ds.filter Diagnostic.isError).length

def warningCount (ds : List Diagnostic) : Nat := ds.length - errorCount ds

end Inlay
