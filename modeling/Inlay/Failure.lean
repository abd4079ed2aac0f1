import Inlay.Text.Span

/-!
# Failures

Reading host source, configurations and data files can fail as a whole.  A
failure is a cause; its text is made only when it is shown.
-/

namespace Inlay

/-- Why an input could not be read. -/
inductive Failure where
  | source (fileName : String)
  | json
  | version (found : Nat)
  | file
  deriving DecidableEq, Inhabited

/-- The text of a failure, where it has one that does not depend on the
machine. -/
def Failure.message? : Failure → Option String
  | .source fileName => some ("failed to parse \x60" ++ fileName ++ "\x60")
  | .version found => some ("unsupported html data version " ++ toString found)
  | .json | .file => none

end Inlay
