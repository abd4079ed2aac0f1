import Inlay.Lint.Engine

/-!
# Walking with a context

A walk of the engine can share one context among all rules.  It holds what has been reported so
far, and the rule that is running with its severity; a rule is entered before each of its
hooks, and what is reported bears the name and the severity that the context holds then.

`Engine` collects what each rule finds and marks it afterwards.
-/

namespace Inlay

open Markup

/-- What the rules of a walk share.  `bindings` are the types that the walk has resolved. -/
structure Context where
  diagnostics : List Diagnostic := []
  bindings : List (Nat × BindingTypes) := []
  rule : String := ""
  severity : Severity := .warning
  deriving Inhabited

namespace Context

/-- What has been reported, without the rule that is running. -/
def toReport (c : Context) : Report := { diagnostics := c.diagnostics, bindings := c.bindings }

/-- From here on, reports belong to a rule. -/
def enter (c : Context) (e : Enabled) : Context :=
  { c with rule := e.rule.info.name, severity := e.severity }

/-- A diagnostic of the current rule, not yet reported. -/
def diagnostic (s : Scene) (c : Context) (f : Finding) : Diagnostic :=
  { rule := c.rule, severity := c.severity, fileName := s.document.fileName,
    location := s.document.location, finding := f }

def report (s : Scene) (c : Context) (f : Finding) : Context :=
  { c with diagnostics := c.diagnostics ++ [c.diagnostic s f] }

/-- Let the rules look at one place, one after the other. -/
def runHook (s : Scene) (look : Rule → Consult (List Finding)) :
    List Enabled → Context → Consult Context
  | [], c => pure c
  | e :: rest, c => do
    let found ← look e.rule
    runHook s look rest (found.foldl (report s) (c.enter e))

def checkAttribute (rules : List Enabled) (s : Scene) (typeOf : HostExpression → StaticType)
    (memo : BindingMemo) (n : Node) (a : Attribute) (c : Context) : Consult Context := do
  let c ← runHook s (fun r => r.onAttribute s n a) rules c
  match a.assignment with
  | none => return c
  | some assignment =>
    let types ← BindingTypes.resolve memo typeOf n.tag a assignment
    let c := { c with bindings := c.bindings ++ [(assignment.id, types)] }
    runHook s (fun r => pure (r.onAssignment s n a assignment types)) rules c

def checkAttributes (rules : List Enabled) (s : Scene) (typeOf : HostExpression → StaticType)
    (memo : BindingMemo) (n : Node) : List Attribute → Context → Consult Context
  | [], c => pure c
  | a :: rest, c => do
    let c ← checkAttribute rules s typeOf memo n a c
    checkAttributes rules s typeOf memo n rest c

def checkNode (rules : List Enabled) (s : Scene) (typeOf : HostExpression → StaticType)
    (memo : BindingMemo) (n : Node) (c : Context) : Consult Context := do
  let c ← runHook s (fun r => r.onNode s n) rules c
  if n.kind ≠ .element then return c
  checkAttributes rules s typeOf memo n n.attributes c

def checkNodes (rules : List Enabled) (s : Scene) (typeOf : HostExpression → StaticType)
    (memo : BindingMemo) : List Node → Context → Consult Context
  | [], c => pure c
  | n :: rest, c => do
    let c ← checkNode rules s typeOf memo n c
    checkNodes rules s typeOf memo rest c

/-- Check a markup document with one context for all rules. -/
def checkMarkupWith (rules : List Rule) (s : Scene) (types : TypeProvider) (memo : BindingMemo) :
    Consult Context :=
  let enabled := enabledRules rules s.settings
  if enabled.isEmpty then pure {}
  else checkNodes enabled s (types s.document.fileName) memo s.tree.nodes {}

end Context
end Inlay
