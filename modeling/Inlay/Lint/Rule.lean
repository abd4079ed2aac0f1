import Inlay.Binding.Types
import Inlay.Lint.Settings
import Inlay.Markup.Lookup
import Inlay.Text.Distance

/-!
# Rules

A rule looks at nodes, attributes and assignments, one at a time, and reports
findings.  It has no state and sees nothing of other rules, so the findings of
one rule cannot depend on whether another one runs.
-/

namespace Inlay

open Markup

/-- What rules see besides the knowledge base.  `visibleFiles` are the files
whose components can be used in the document, if the host can tell. -/
structure Scene where
  document : Document
  tree : Tree
  settings : Settings
  visibleFiles : Option (List String) := none
  deriving Inhabited

/-- A rule with its three hooks.  Attributes and assignments are seen only on
elements whose content is markup. -/
structure Rule where
  info : RuleInfo
  onNode : Scene → Node → Consult (List Finding) := fun _ _ => pure []
  onAttribute : Scene → Node → Attribute → Consult (List Finding) := fun _ _ _ => pure []
  onAssignment : Scene → Node → Attribute → Assignment → BindingTypes → List Finding :=
    fun _ _ _ _ _ => []

/-- The nearest of some names, as far as the settings allow. -/
def Scene.suggest (s : Scene) (name : String) (candidates : List String) : Option String :=
  nearest? name candidates s.settings.suggestionDistance

/-- The question whether a suggested name was meant; `mark` stands around it. -/
def didYouMean (mark : String → String) (suggested : String) : String :=
  "Did you mean '" ++ mark suggested ++ "'?"

end Inlay
