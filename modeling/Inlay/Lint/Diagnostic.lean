import Inlay.Document.Basic
import Inlay.Types.Render

/-!
# Diagnostics

A diagnostic points at a range of a document and carries what an editor needs to
act on it.  Its range in the host file follows from the place of the document.
-/

namespace Inlay

inductive Severity where
  | error
  | warning
  deriving DecidableEq, Inhabited

def Severity.word : Severity → String
  | .error => "error"
  | .warning => "warning"

inductive DiagnosticKind where
  | template
  | stylesheet
  | discovery
  deriving DecidableEq, Inhabited

def DiagnosticKind.word : DiagnosticKind → String
  | .template => "template"
  | .stylesheet => "stylesheet"
  | .discovery => "discovery"

/-- The findings of a rule in a form that can be acted on. -/
inductive Payload where
  | none
  | typeMismatch (target value : StaticType)
  | unknownTarget (name : String) (suggested : Option String)
  | invalidSlot (valid : List String)
  | missingImport (tag fileName : String)
  | css (line column : Nat)
  deriving Inhabited

/-- What a rule reports, before it is known with which severity. -/
structure Finding where
  span : Span
  message : String
  help : Option String := none
  payload : Payload := .none
  deriving Inhabited

/-- A finding of a rule in a document.  `location` is the place of the document
in its host file. -/
structure Diagnostic where
  rule : String
  kind : DiagnosticKind := .template
  severity : Severity
  fileName : String
  location : Span
  finding : Finding
  deriving Inhabited

namespace Diagnostic

def hostSpan (d : Diagnostic) : Span := d.finding.span.shift d.location.start

def isError (d : Diagnostic) : Bool := d.severity = .error

end Diagnostic

/-- Names between quotes, as alternatives. -/
def quotedNames (names : List String) : String :=
  String.intercalate " | " (names.map fun n => "\"" ++ n ++ "\"")

end Inlay
