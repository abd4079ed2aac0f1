import Inlay.Standalone.HostTemplates
import Inlay.Standalone.Json
import Inlay.Standalone.Stylesheet
import Inlay.Workspace.Session

/-!
# Parsers of the library itself

The library takes its parsers from the program that uses it.  Where it runs on its own,
these serve: simple ones, that know as much of each language as the texts need that it is
tried on.
-/

namespace Inlay

def Standalone.parsers : Parsers :=
  { host := Standalone.templates?
    stylesheet := Standalone.Stylesheet.error?
    json := Standalone.Json.read? }

end Inlay
