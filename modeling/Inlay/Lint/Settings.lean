import Inlay.Lint.Diagnostic
import Inlay.Lint.Security

/-!
# Settings of rules

Every rule has a usual level and a strict one.  A level that is set for a rule by
name takes the place of both.
-/

namespace Inlay

/-- How seriously a rule is taken. -/
inductive Level where
  | off
  | warn
  | error
  deriving DecidableEq, Inhabited

/-- The severity of what a rule of a level reports, if it runs at all. -/
def Level.severity? : Level → Option Severity
  | .off => none
  | .warn => some .warning
  | .error => some .error

/-- A rule by its name, with what it does and its two levels. -/
structure RuleInfo where
  name : String
  description : String
  usual : Level
  strict : Level
  deriving DecidableEq, Inhabited

/-- The largest distance of a suggested name, unless another is set. -/
def defaultSuggestionDistance : Nat := 3

/-- What rules read of the configuration. -/
structure Settings where
  isStrict : Bool := false
  levels : List (String × Level) := []
  security : Security := {}
  suggestionDistance : Nat := defaultSuggestionDistance
  deriving DecidableEq, Inhabited

def Settings.level (s : Settings) (r : RuleInfo) : Level :=
  (s.levels.lookup r.name).getD (if s.isStrict then r.strict else r.usual)

def Settings.severity? (s : Settings) (r : RuleInfo) : Option Severity := (s.level r).severity?

end Inlay
