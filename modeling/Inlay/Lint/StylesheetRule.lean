import Inlay.Lint.Settings
import Inlay.Document.Basic
import Inlay.Stylesheet.Position

/-!
# The rule about stylesheets

A stylesheet that cannot be read gives one diagnostic, at the byte where its
first error is reported.
-/

namespace Inlay
namespace InvalidCss

def info : RuleInfo :=
  { name := "no-invalid-css", description := "Disallow stylesheets that fail to parse"
    usual := .warn, strict := .error }

/-- The byte that an offset stands before, or nothing at the end of the text. -/
def spanAt (text : String) (offset : Nat) : Span :=
  Span.of offset (min (offset + 1) text.utf8ByteSize)

def finding (text : String) (e : Stylesheet.Error) : Finding :=
  { span := spanAt text (Stylesheet.offsetOf text e.mark), message := e.message
    payload := .css e.mark.line e.mark.column }

/-- Report the first error that a parser of stylesheets finds. -/
def checkWith (error? : Stylesheet.Parser) (s : Settings) (d : Document) : List Diagnostic :=
  match s.severity? info with
  | none => []
  | some severity =>
    ((error? d.text).map fun e =>
      { rule := info.name, kind := .stylesheet, severity := severity, fileName := d.fileName,
        location := d.location, finding := finding d.text e : Diagnostic }).toList

end InvalidCss
end Inlay
